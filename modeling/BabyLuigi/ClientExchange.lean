import BabyLuigi.ZmqRouter
import Mathlib.Logic.Relation

/-!
# Clients and the router

Calls of `submit_task_request`, each with a socket of its own, and the router
that their messages reach. The network keeps no order between sockets and may
lose what it carries.
-/

set_option autoImplicit false

namespace BabyLuigi

/-- How far a call has got: its acknowledgement is the first frame received. -/
inductive SubmitPhase where
  | ready
  | waiting
  | returned (ack : Option Str)
  deriving DecidableEq, Repr

/-- What the call returned. -/
def SubmitPhase.result : SubmitPhase → Option Bool
  | .returned (some ack) => some (ack = ascii "OK")
  | .returned none => some false
  | _ => none

/-- The calls by the identities of their sockets, the messages that are on
their way, and the requests that `route_data` returned, newest first, each with
its sender. -/
structure Exchange where
  calls : Str → SubmitPhase
  toRouter : List (Str × List Str)
  toClients : List Reply
  handed : List (Str × ShyguyRequest)

namespace Exchange

inductive Event where
  | send
  | intrude
  | route (sendMultipart : Reply → SendMultipart)
  | acknowledge
  | noAcknowledgement
  | lose

/-- The event brings a message or a reply to where it is going. -/
def Event.Delivers : Event → Prop
  | .route sendMultipart => ∀ reply, sendMultipart reply = .sent
  | .acknowledge => True
  | _ => False

/-- Nothing fails and nothing gets lost. -/
def Event.Reliable : Event → Prop
  | .send | .intrude => True
  | event => event.Delivers

def initial : Exchange where
  calls _ := .ready
  toRouter := []
  toClients := []
  handed := []

/-- What one sender added to a list of sent things. -/
def sentBy {Message : Type} (identity : Str) (entries : List (Str × Message)) : List Message :=
  entries.filterMap fun entry => if entry.1 = identity then some entry.2 else none

def messages (exchange : Exchange) (identity : Str) : List (List Str) :=
  sentBy identity exchange.toRouter

def statuses (exchange : Exchange) (identity : Str) : List Str :=
  sentBy identity (exchange.toClients.map fun reply => (reply.identity, reply.status))

def handedBy (exchange : Exchange) (identity : Str) : List ShyguyRequest :=
  sentBy identity exchange.handed

def setCall (exchange : Exchange) (identity : Str) (phase : SubmitPhase) : Exchange :=
  { exchange with calls := Function.update exchange.calls identity phase }

section Steps

variable (submits : Str → Option ShyguyRequest) (toBson : Json → Str)
  (fromBson : Str → Except Fault Json)

/-- A step of a call, of the router or of the network. A peer that is no call
sends what it likes in up to two frames; a pass that throws hands nothing over. -/
inductive Step (exchange : Exchange) : Event → Exchange → Prop where
  | send {identity : Str} {request : ShyguyRequest} :
      submits identity = some request → exchange.calls identity = .ready →
      Step exchange .send
        { exchange.setCall identity .waiting with
          toRouter := exchange.toRouter ++ [(identity, [createRequest toBson request])] }
  | intrude {identity : Str} {rest : List Str} :
      submits identity = none → rest.length ≤ 1 →
      Step exchange .intrude { exchange with toRouter := exchange.toRouter ++ [(identity, rest)] }
  | route {identity : Str} {rest : List Str} {before after : List (Str × List Str)}
      {sendMultipart : Reply → SendMultipart} {replies : List Reply}
      {returned : Option ShyguyRequest} :
      exchange.toRouter = before ++ (identity, rest) :: after →
      routeData fromBson { recvMultipart := .received identity rest, sendMultipart } =
        { replies := replies, result := .ok returned } →
      Step exchange (.route sendMultipart)
        { exchange with
          toRouter := before ++ after
          toClients := exchange.toClients ++ replies
          handed := (returned.map fun request => (identity, request)).toList ++ exchange.handed }
  | acknowledge {reply : Reply} {before after : List Reply} :
      exchange.toClients = before ++ reply :: after → exchange.calls reply.identity = .waiting →
      Step exchange .acknowledge
        { exchange.setCall reply.identity (.returned (some reply.status)) with
          toClients := before ++ after }
  | noAcknowledgement {identity : Str} :
      exchange.calls identity = .waiting →
      Step exchange .noAcknowledgement (exchange.setCall identity (.returned none))
  | loseMessage {message : Str × List Str} {before after : List (Str × List Str)} :
      exchange.toRouter = before ++ message :: after →
      Step exchange .lose { exchange with toRouter := before ++ after }
  | loseReply {reply : Reply} {before after : List Reply} :
      exchange.toClients = before ++ reply :: after →
      Step exchange .lose { exchange with toClients := before ++ after }

/-- A step whose event is of some kind. -/
def Moves (kind : Event → Prop) (exchange after : Exchange) : Prop :=
  ∃ event, kind event ∧ Step submits toBson fromBson exchange event after

/-- The exchanges that events of some kind lead to. -/
def Reachable (kind : Event → Prop) (exchange : Exchange) : Prop :=
  Relation.ReflTransGen (Moves submits toBson fromBson kind) initial exchange

end Steps

end Exchange

end BabyLuigi
