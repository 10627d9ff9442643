import BabyLuigi.RequestJson

/-!
# The router

One pass of the io thread over its socket: a message is stored in a pack of two
frames, decoded and answered.
-/

set_option autoImplicit false

namespace BabyLuigi

/-- What a socket call throws: `zmq::error_t` is no `std::runtime_error`. -/
inductive SocketException where
  | runtimeError
  | errorT
  deriving DecidableEq, Repr

/-- One call of `zmq::recv_multipart`: a message with the identity of its sender
first, no message, or an exception after the frames written so far. -/
inductive RecvMultipart where
  | received (identity : Str) (rest : List Str)
  | again
  | threw (exception : SocketException) (written : List Str)

/-- The frames that go through the output iterator. -/
def RecvMultipart.frames : RecvMultipart → List Str
  | .received identity rest => identity :: rest
  | .again => []
  | .threw _ written => written

inductive SendMultipart where
  | sent
  | again
  | threw
  deriving DecidableEq, Repr

structure Reply where
  identity : Str
  status : Str
  deriving DecidableEq, Repr

def okReply (identity : Str) : Reply := { identity := identity, status := ascii "OK" }

def errorReply (identity : Str) : Reply := { identity := identity, status := ascii "ERROR" }

/-- What the calls on the socket come to during one pass. -/
structure Responder where
  recvMultipart : RecvMultipart
  sendMultipart : Reply → SendMultipart

inductive RouteFault where
  | outsidePack
  | terminate
  | exception
  | undefinedBehavior
  deriving DecidableEq, Repr

/-- `std::array<zmq::message_t, 2>`. -/
structure MessagePack where
  identity : Str
  payload : Str

namespace MessagePack

def initial : MessagePack where
  identity := []
  payload := []

def store (pack : MessagePack) (index : Nat) (frame : Str) : Except RouteFault MessagePack :=
  match index with
  | 0 => .ok { pack with identity := frame }
  | 1 => .ok { pack with payload := frame }
  | _ => .error .outsidePack

/-- The frames go to consecutive places; the iterator knows no end. -/
def storeFrames (pack : MessagePack) (index : Nat) : List Str → Except RouteFault MessagePack
  | [] => .ok pack
  | frame :: rest => pack.store index frame >>= fun stored => stored.storeFrames (index + 1) rest

end MessagePack

/-- `receive_task` is `noexcept` and catches `std::runtime_error` only. -/
def receiveTask (recv : RecvMultipart) (pack : MessagePack) :
    Except RouteFault (Option Nat × MessagePack) := do
  let pack ← pack.storeFrames 0 recv.frames
  match recv with
  | .received _ rest => return (some (rest.length + 1), pack)
  | .again => return (none, pack)
  | .threw .runtimeError _ => return (none, pack)
  | .threw .errorT _ => throw .terminate

/-- The replies sent, and what the call returns or ends in. -/
structure Route where
  replies : List Reply
  result : Except RouteFault (Option ShyguyRequest)

/-- The handler of `route_data`, from which a failed send leaves the function. -/
def routeFailed (responder : Responder) (pack : MessagePack) : Route :=
  match responder.sendMultipart (errorReply pack.identity) with
  | .sent => { replies := [errorReply pack.identity], result := .ok none }
  | .again => { replies := [], result := .ok none }
  | .threw => { replies := [], result := .error .exception }

/-- The `try` block of `route_data`, with its handler. -/
def routeReceived (fromBson : Str → Except Fault Json) (responder : Responder)
    (pack : MessagePack) : Route :=
  match unpackRequest fromBson pack.payload with
  | .error fault =>
    if fault.isException then routeFailed responder pack
    else { replies := [], result := .error .undefinedBehavior }
  | .ok request =>
    match responder.sendMultipart (okReply pack.identity) with
    | .sent => { replies := [okReply pack.identity], result := .ok (some request) }
    | .again => { replies := [], result := .ok (some request) }
    | .threw => routeFailed responder pack

def routeData (fromBson : Str → Except Fault Json) (responder : Responder) : Route :=
  match receiveTask responder.recvMultipart .initial with
  | .error fault => { replies := [], result := .error fault }
  | .ok (none, _) => { replies := [], result := .ok none }
  | .ok (some _, pack) => routeReceived fromBson responder pack

end BabyLuigi
