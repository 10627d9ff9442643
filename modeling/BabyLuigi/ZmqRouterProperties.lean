import BabyLuigi.RequestJsonProperties
import BabyLuigi.ZmqRouter

/-! Which messages the router stores and answers as it should. -/

set_option autoImplicit false

namespace BabyLuigi

/-- The fault is an exception that can be caught. -/
def Throws (fault : Fault) : Prop := fault.isException = true

namespace Json

theorem failsWithin_getString (json : Json) : FailsWithin Throws json.getString := by
  cases json with
  | string value => exact failsWithin_ok _ value
  | _ => exact failsWithin_error rfl

theorem failsWithin_getStrings (json : Json) : FailsWithin Throws json.getStrings := by
  cases json with
  | array elements => exact failsWithin_mapM failsWithin_getString elements
  | _ => exact failsWithin_error rfl

theorem failsWithin_getOptional {Value : Type} {get : Json → Except Fault Value}
    (fails : ∀ json, FailsWithin Throws (get json)) (json : Json) :
    FailsWithin Throws (json.getOptional get) := by
  cases json with
  | null => exact failsWithin_ok _ none
  | _ => exact (fails _).map some

theorem failsWithin_at' (json : Json) (name : Str) : FailsWithin Throws (json.at' name) := by
  unfold at'
  cases json.member name with
  | none => exact failsWithin_error rfl
  | some value => exact failsWithin_ok _ value

theorem failsWithin_stringOr (json : Json) (name fallback : Str) :
    FailsWithin Throws (json.stringOr name fallback) := by
  unfold stringOr
  split
  · cases json.member name with
    | none => exact failsWithin_ok _ fallback
    | some value => exact failsWithin_getString value
  · exact failsWithin_error rfl

theorem failsWithin_getDag (json : Json) : FailsWithin Throws json.getDag :=
  (failsWithin_at' json _).bind fun name => (failsWithin_getString name).bind fun _ =>
  (failsWithin_at' json _).bind fun schedule =>
  (failsWithin_getOptional failsWithin_getString schedule).bind fun _ => failsWithin_ok _ _

theorem failsWithin_getTask (json : Json) : FailsWithin Throws json.getTask :=
  (failsWithin_at' json _).bind fun name => (failsWithin_getString name).bind fun _ =>
  (failsWithin_at' json _).bind fun dag => (failsWithin_getString dag).bind fun _ =>
  (failsWithin_at' json _).bind fun type =>
  (failsWithin_getOptional failsWithin_getString type).bind fun _ =>
  (failsWithin_at' json _).bind fun filename =>
  (failsWithin_getOptional failsWithin_getString filename).bind fun _ =>
  (failsWithin_at' json _).bind fun content =>
  (failsWithin_getOptional failsWithin_getString content).bind fun _ =>
  (failsWithin_at' json _).bind fun names =>
  (failsWithin_getOptional failsWithin_getStrings names).bind fun _ => failsWithin_ok _ _

/-- Whatever value was sent, decoding it into a request at most throws. -/
theorem failsWithin_getRequest (json : Json) : FailsWithin Throws json.getRequest := by
  refine (failsWithin_stringOr json _ _).bind fun command => ?_
  dsimp only
  split
  · exact failsWithin_ok _ _
  · split
    · refine (failsWithin_at' json _).bind fun type => ?_
      refine (failsWithin_getString type).bind fun name => ?_
      cases toRequestType name with
      | dag =>
          exact (failsWithin_at' json _).bind fun value =>
            (failsWithin_getDag value).bind fun _ => failsWithin_ok _ _
      | task =>
          exact (failsWithin_at' json _).bind fun value =>
            (failsWithin_getTask value).bind fun _ => failsWithin_ok _ _
      | unset => exact failsWithin_ok _ _
      | unknown => exact failsWithin_ok _ _
    · exact failsWithin_ok _ _

end Json

theorem failsWithin_unpackRequest {fromBson : Str → Except Fault Json}
    (decoder : ∀ payload, FailsWithin Throws (fromBson payload)) (payload : Str) :
    FailsWithin Throws (unpackRequest fromBson payload) :=
  (decoder payload).bind Json.failsWithin_getRequest

namespace MessagePack

theorem storeFrames_initial {rest : List Str} (identity : Str) (fits : rest.length ≤ 1) :
    initial.storeFrames 0 (identity :: rest) =
      .ok { identity := identity, payload := rest.headD [] } := by
  cases rest with
  | nil => rfl
  | cons payload more =>
      have single : more = [] := by simpa using fits
      rw [single]
      rfl

theorem storeFrames_outside {frames : List Str} (long : 2 < frames.length) :
    initial.storeFrames 0 frames = .error .outsidePack := by
  obtain ⟨identity, payload, third, rest, rfl⟩ :
      ∃ identity payload third rest, frames = identity :: payload :: third :: rest := by
    cases frames with
    | nil => simp at long
    | cons identity rest =>
        cases rest with
        | nil => simp at long
        | cons payload rest =>
            cases rest with
            | nil => simp at long
            | cons third rest => exact ⟨identity, payload, third, rest, rfl⟩
  rfl

theorem storeFrames_inside {frames : List Str} (short : frames.length ≤ 2) :
    ∃ stored, initial.storeFrames 0 frames = .ok stored := by
  cases frames with
  | nil => exact ⟨initial, rfl⟩
  | cons identity rest => exact ⟨_, storeFrames_initial identity (by simpa using short)⟩

end MessagePack

section Routing

variable {fromBson : Str → Except Fault Json} {responder : Responder}

/-- The reply that the payload calls for can be sent, or the error reply after
the other one threw. -/
def Replies (fromBson : Str → Except Fault Json) (responder : Responder) (identity payload : Str) :
    Prop :=
  if (unpackRequest fromBson payload).isOk then
    responder.sendMultipart (okReply identity) = .sent ∨
      responder.sendMultipart (okReply identity) = .threw ∧
        responder.sendMultipart (errorReply identity) = .sent
  else responder.sendMultipart (errorReply identity) = .sent

/-- The pass stores nothing outside of its pack, nothing escapes `receive_task`,
and the sender of a received message gets the one reply that tells what is returned. -/
structure Acknowledges (fromBson : Str → Except Fault Json) (responder : Responder) (route : Route) :
    Prop where
  inside : route.result ≠ .error .outsidePack
  contained : route.result ≠ .error .terminate
  answered : ∀ identity rest, responder.recvMultipart = .received identity rest →
    Replies fromBson responder identity (rest.headD []) →
    (∃ request, route.result = .ok (some request) ∧ route.replies = [okReply identity]) ∨
      route.result = .ok none ∧ route.replies = [errorReply identity]

theorem routeReceived_contained (decoder : ∀ payload, FailsWithin Throws (fromBson payload))
    (pack : MessagePack) :
    (routeReceived fromBson responder pack).result ≠ .error .outsidePack ∧
      (routeReceived fromBson responder pack).result ≠ .error .terminate := by
  have failed : (routeFailed responder pack).result ≠ .error .outsidePack ∧
      (routeFailed responder pack).result ≠ .error .terminate := by
    unfold routeFailed
    cases responder.sendMultipart (errorReply pack.identity) <;> simp
  unfold routeReceived
  cases unpacked : unpackRequest fromBson pack.payload with
  | error fault =>
      have throws : fault.isException = true := failsWithin_unpackRequest decoder _ fault unpacked
      simp only [throws, if_true]
      exact failed
  | ok request =>
      cases responder.sendMultipart (okReply pack.identity) with
      | sent => simp
      | again => simp
      | threw => exact failed

theorem routeReceived_answered (decoder : ∀ payload, FailsWithin Throws (fromBson payload))
    (pack : MessagePack) (replies : Replies fromBson responder pack.identity pack.payload) :
    (∃ request, (routeReceived fromBson responder pack).result = .ok (some request) ∧
      (routeReceived fromBson responder pack).replies = [okReply pack.identity]) ∨
    (routeReceived fromBson responder pack).result = .ok none ∧
      (routeReceived fromBson responder pack).replies = [errorReply pack.identity] := by
  unfold Replies at replies
  cases unpacked : unpackRequest fromBson pack.payload with
  | error fault =>
      rw [unpacked] at replies
      have throws : fault.isException = true := failsWithin_unpackRequest decoder _ fault unpacked
      have sent : responder.sendMultipart (errorReply pack.identity) = .sent := replies
      have routed : routeReceived fromBson responder pack =
          { replies := [errorReply pack.identity], result := .ok none } := by
        rw [routeReceived, unpacked]
        dsimp only
        rw [if_pos throws, routeFailed, sent]
      rw [routed]
      exact .inr ⟨rfl, rfl⟩
  | ok request =>
      rw [unpacked] at replies
      rcases replies with sent | ⟨threw, sent⟩
      · have routed : routeReceived fromBson responder pack =
            { replies := [okReply pack.identity], result := .ok (some request) } := by
          rw [routeReceived, unpacked]
          dsimp only
          rw [sent]
        rw [routed]
        exact .inl ⟨request, rfl, rfl⟩
      · have routed : routeReceived fromBson responder pack =
            { replies := [errorReply pack.identity], result := .ok none } := by
          rw [routeReceived, unpacked]
          dsimp only
          rw [threw, routeFailed, sent]
        rw [routed]
        exact .inr ⟨rfl, rfl⟩

theorem acknowledges_nothing
    (noMessage : ∀ identity rest, responder.recvMultipart ≠ .received identity rest) :
    Acknowledges fromBson responder { replies := [], result := .ok none } := by
  refine ⟨nofun, nofun, ?_⟩
  intro identity rest received
  exact absurd received (noMessage identity rest)

/-- The router does its part exactly when the message has at most two frames and
`zmq::recv_multipart` does not throw `zmq::error_t`. -/
theorem routeData_acknowledges_iff (decoder : ∀ payload, FailsWithin Throws (fromBson payload)) :
    Acknowledges fromBson responder (routeData fromBson responder) ↔
      responder.recvMultipart.frames.length ≤ 2 ∧
        ∀ written, responder.recvMultipart ≠ .threw .errorT written := by
  constructor
  · intro acknowledges
    have short : responder.recvMultipart.frames.length ≤ 2 := by
      by_contra long
      refine acknowledges.inside ?_
      rw [routeData, receiveTask,
        bind_of_error (MessagePack.storeFrames_outside (Nat.lt_of_not_le long))]
    refine ⟨short, ?_⟩
    intro written threw
    refine acknowledges.contained ?_
    obtain ⟨stored, inside⟩ := MessagePack.storeFrames_inside short
    rw [routeData, receiveTask, bind_of_ok inside, threw]
    rfl
  · rintro ⟨short, notThrown⟩
    obtain ⟨stored, inside⟩ := MessagePack.storeFrames_inside short
    cases recv : responder.recvMultipart with
    | received identity rest =>
        rw [recv] at short inside
        cases inside.symm.trans (MessagePack.storeFrames_initial identity (Nat.le_of_succ_le_succ short))
        have routed : routeData fromBson responder = routeReceived fromBson responder
            { identity := identity, payload := rest.headD [] } := by
          rw [routeData, recv, receiveTask, bind_of_ok inside]
          rfl
        rw [routed]
        obtain ⟨insidePack, contained⟩ := routeReceived_contained decoder
          { identity := identity, payload := rest.headD [] }
        refine ⟨insidePack, contained, ?_⟩
        intro sender others same
        cases recv.symm.trans same
        exact routeReceived_answered decoder { identity := identity, payload := rest.headD [] }
    | again =>
        have routed : routeData fromBson responder = { replies := [], result := .ok none } := by
          rw [routeData, recv]
          rfl
        rw [routed]
        exact acknowledges_nothing fun _ _ received => by cases recv.symm.trans received
    | threw exception written =>
        cases exception with
        | errorT => exact absurd recv (notThrown written)
        | runtimeError =>
            have routed : routeData fromBson responder = { replies := [], result := .ok none } := by
              rw [recv] at inside
              rw [routeData, recv, receiveTask, bind_of_ok inside]
              rfl
            rw [routed]
            exact acknowledges_nothing fun _ _ received => by cases recv.symm.trans received

end Routing

def receives (identity : Str) (rest : List Str) : Responder where
  recvMultipart := .received identity rest
  sendMultipart := fun _ => .sent

/-- A decoder that knows one document. -/
def decodeEtl (payload : Str) : Except Fault Json :=
  if payload = createEtlPayload then .ok (.ofRequest createEtl) else .error .jsonException

theorem routeData_acknowledges_iff_etl :
    Acknowledges decodeEtl (receives (ascii "dealer") [createEtlPayload])
      (routeData decodeEtl (receives (ascii "dealer") [createEtlPayload])) := by
  have decoder : ∀ payload, FailsWithin Throws (decodeEtl payload) := by
    intro payload
    unfold decodeEtl
    split
    · exact failsWithin_ok _ _
    · exact failsWithin_error rfl
  exact (routeData_acknowledges_iff decoder).mpr ⟨by decide, by intro _ impossible; cases impossible⟩

/-- A peer that sends one frame more makes the router write past its pack, and an
interrupted receive ends the process. -/
theorem third_frame_outside_pack :
    ¬ Acknowledges decodeEtl (receives (ascii "dealer") [createEtlPayload, []])
      (routeData decodeEtl (receives (ascii "dealer") [createEtlPayload, []])) ∧
    ∃ interrupted : Responder, interrupted.recvMultipart = .threw .errorT [] ∧
      ¬ Acknowledges decodeEtl interrupted (routeData decodeEtl interrupted) :=
  ⟨fun acknowledges => acknowledges.inside rfl,
    { recvMultipart := .threw .errorT [], sendMultipart := fun _ => .sent }, rfl,
    fun acknowledges => acknowledges.contained rfl⟩

end BabyLuigi
