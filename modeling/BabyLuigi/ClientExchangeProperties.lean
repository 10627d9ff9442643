import BabyLuigi.ClientExchange
import BabyLuigi.Support.Transition
import BabyLuigi.ZmqRouterProperties

/-! What a call of `submit_task_request` can tell from its acknowledgement, and
that every call is acknowledged where nothing fails. -/

set_option autoImplicit false

namespace BabyLuigi

/-! ### One pass of the router -/

section Pass

variable {fromBson : Str → Except Fault Json} {sendMultipart : Reply → SendMultipart}
  {identity : Str} {rest : List Str} {replies : List Reply} {returned : Option ShyguyRequest}

theorem routeData_received (fits : rest.length ≤ 1) :
    routeData fromBson { recvMultipart := .received identity rest, sendMultipart } =
      routeReceived fromBson { recvMultipart := .received identity rest, sendMultipart }
        { identity := identity, payload := rest.headD [] } := by
  rw [routeData, receiveTask, RecvMultipart.frames,
    bind_of_ok (MessagePack.storeFrames_initial identity fits)]
  rfl

theorem length_of_routed
    (routed : routeData fromBson { recvMultipart := .received identity rest, sendMultipart } =
      { replies := replies, result := .ok returned }) : rest.length ≤ 1 := by
  by_contra long
  have outside : MessagePack.initial.storeFrames 0 (identity :: rest) = .error .outsidePack :=
    MessagePack.storeFrames_outside (by simp only [List.length_cons]; omega)
  rw [routeData, receiveTask, RecvMultipart.frames, bind_of_error outside] at routed
  cases routed

theorem routeFailed_cases {responder : Responder} {pack : MessagePack}
    (routed : routeFailed responder pack = { replies := replies, result := .ok returned }) :
    returned = none ∧ (replies = [errorReply pack.identity] ∨ replies = []) := by
  unfold routeFailed at routed
  split at routed
  · cases routed
    exact ⟨rfl, .inl rfl⟩
  · cases routed
    exact ⟨rfl, .inr rfl⟩
  · cases routed

/-- A pass that returns a request has sent no refusal, and one that returns none
has sent no acknowledgement. -/
theorem routed_cases
    (routed : routeData fromBson { recvMultipart := .received identity rest, sendMultipart } =
      { replies := replies, result := .ok returned }) :
    (∃ request, unpackRequest fromBson (rest.headD []) = .ok request ∧ returned = some request ∧
      (replies = [okReply identity] ∨ replies = [])) ∨
    returned = none ∧ (replies = [errorReply identity] ∨ replies = []) := by
  rw [routeData_received (length_of_routed routed), routeReceived] at routed
  split at routed
  · split at routed
    · exact .inr (routeFailed_cases routed)
    · cases routed
  · rename_i request unpacked
    split at routed
    · cases routed
      exact .inl ⟨request, unpacked, rfl, .inl rfl⟩
    · cases routed
      exact .inl ⟨request, unpacked, rfl, .inr rfl⟩
    · exact .inr (routeFailed_cases routed)

/-- A pass that can send answers a request that it can read. -/
theorem routed_sent (sends : ∀ reply, sendMultipart reply = .sent)
    (routed : routeData fromBson { recvMultipart := .received identity rest, sendMultipart } =
      { replies := replies, result := .ok returned })
    {request : ShyguyRequest} (unpacked : unpackRequest fromBson (rest.headD []) = .ok request) :
    replies = [okReply identity] ∧ returned = some request := by
  rw [routeData_received (length_of_routed routed), routeReceived, unpacked] at routed
  simp only [sends] at routed
  cases routed
  exact ⟨rfl, rfl⟩

/-- A pass that can send returns, whatever it received. -/
theorem exists_routed (decoder : ∀ payload, FailsWithin Throws (fromBson payload))
    (sends : ∀ reply, sendMultipart reply = .sent) (fits : rest.length ≤ 1) :
    ∃ replies returned,
      routeData fromBson { recvMultipart := .received identity rest, sendMultipart } =
        { replies := replies, result := .ok returned } := by
  rw [routeData_received fits]
  have replies : Replies fromBson { recvMultipart := .received identity rest, sendMultipart }
      identity (rest.headD []) := by
    unfold Replies
    split
    · exact .inl (sends _)
    · exact sends _
  rcases routeReceived_answered decoder
      { identity := identity, payload := rest.headD [] } replies with
    ⟨request, result, sent⟩ | ⟨result, sent⟩
  · exact ⟨_, some request, congrArg₂ Route.mk sent result⟩
  · exact ⟨_, none, congrArg₂ Route.mk sent result⟩

end Pass

/-- The call still waits, or has failed to get an acknowledgement. -/
def SubmitPhase.Open (failing : Prop) (phase : SubmitPhase) : Prop :=
  phase = .waiting ∨ failing ∧ phase = .returned none

theorem SubmitPhase.Open.result {failing : Prop} {phase : SubmitPhase} (isOpen : phase.Open failing) :
    phase.result ≠ some true ∧ ∀ ack, phase ≠ .returned (some ack) := by
  rcases isOpen with rfl | ⟨_, rfl⟩ <;> exact ⟨by decide, nofun⟩

namespace Exchange

section SentBy

variable {Message : Type} {identity sender : Str}

theorem sentBy_append (first second : List (Str × Message)) :
    sentBy identity (first ++ second) = sentBy identity first ++ sentBy identity second :=
  List.filterMap_append

theorem sentBy_cons_self (message : Message) (entries : List (Str × Message)) :
    sentBy identity ((identity, message) :: entries) = message :: sentBy identity entries := by
  simp [sentBy]

theorem sentBy_cons_of_ne (different : sender ≠ identity) (message : Message)
    (entries : List (Str × Message)) :
    sentBy identity ((sender, message) :: entries) = sentBy identity entries := by
  simp [sentBy, different]

/-- An entry that is taken out of the list was the sender's, or does not show. -/
theorem sentBy_taken (identity : Str) (entry : Str × Message)
    (before after : List (Str × Message)) :
    entry.1 = identity ∧ sentBy identity (before ++ entry :: after) =
        sentBy identity before ++ entry.2 :: sentBy identity after ∨
      entry.1 ≠ identity ∧
        sentBy identity (before ++ entry :: after) = sentBy identity (before ++ after) := by
  obtain ⟨sender, message⟩ := entry
  by_cases same : sender = identity
  · subst same
    rw [sentBy_append, sentBy_cons_self]
    exact .inl ⟨rfl, rfl⟩
  · rw [sentBy_append, sentBy_cons_of_ne same, ← sentBy_append]
    exact .inr ⟨same, rfl⟩

end SentBy

/-! ### One call -/

/-- What there is of a call: its phase, its messages, the replies to it and what
the router returned of it. Some of it comes about only where something fails. -/
inductive Told (failing : Prop) (payload : Str) (request : ShyguyRequest) :
    SubmitPhase → List (List Str) → List Str → List ShyguyRequest → Prop where
  | ready : Told failing payload request .ready [] [] []
  | sent {phase : SubmitPhase} : phase.Open failing →
      Told failing payload request phase [[payload]] [] []
  | accepted {phase : SubmitPhase} : phase.Open failing →
      Told failing payload request phase [] [ascii "OK"] [request]
  | acknowledged : Told failing payload request (.returned (some (ascii "OK"))) [] [] [request]
  | lost {phase : SubmitPhase} : failing → phase.Open failing →
      Told failing payload request phase [] [] []
  | unanswered {phase : SubmitPhase} : failing → phase.Open failing →
      Told failing payload request phase [] [] [request]
  | refused {phase : SubmitPhase} : failing → phase.Open failing →
      Told failing payload request phase [] [ascii "ERROR"] []
  | rejected : failing →
      Told failing payload request (.returned (some (ascii "ERROR"))) [] [] []

variable {failing : Prop} {payload : Str} {request : ShyguyRequest} {phase : SubmitPhase}
  {messages : List (List Str)} {statuses : List Str} {handed : List ShyguyRequest}

theorem Told.of_message {before after : List (List Str)} {rest : List Str}
    (told : Told failing payload request phase (before ++ rest :: after) statuses handed) :
    phase.Open failing ∧ before ++ after = [] ∧ rest = [payload] ∧ statuses = [] ∧
      handed = [] := by
  generalize whole : before ++ rest :: after = messages at told
  cases told with
  | sent isOpen =>
      rcases List.append_eq_singleton_iff.mp whole with ⟨rfl, single⟩ | ⟨_, impossible⟩
      · obtain ⟨rfl, rfl⟩ := List.cons.inj single
        exact ⟨isOpen, rfl, rfl, rfl, rfl⟩
      · cases impossible
  | _ => simp at whole

theorem Told.of_status {before after : List Str} {status : Str}
    (told : Told failing payload request phase messages (before ++ status :: after) handed) :
    phase.Open failing ∧ before ++ after = [] ∧ messages = [] ∧
      (status = ascii "OK" ∧ handed = [request] ∨
        failing ∧ status = ascii "ERROR" ∧ handed = []) := by
  generalize whole : before ++ status :: after = statuses at told
  cases told with
  | accepted isOpen =>
      rcases List.append_eq_singleton_iff.mp whole with ⟨rfl, single⟩ | ⟨_, impossible⟩
      · obtain ⟨rfl, rfl⟩ := List.cons.inj single
        exact ⟨isOpen, rfl, rfl, .inl ⟨rfl, rfl⟩⟩
      · cases impossible
  | refused fails isOpen =>
      rcases List.append_eq_singleton_iff.mp whole with ⟨rfl, single⟩ | ⟨_, impossible⟩
      · obtain ⟨rfl, rfl⟩ := List.cons.inj single
        exact ⟨isOpen, rfl, rfl, .inr ⟨fails, rfl, rfl⟩⟩
      · cases impossible
  | _ => simp at whole

theorem Told.handed_cases (told : Told failing payload request phase messages statuses handed) :
    handed = [] ∨ handed = [request] := by
  cases told <;> simp

theorem Told.handed_of_true (told : Told failing payload request phase messages statuses handed)
    (returns : phase.result = some true) : handed = [request] := by
  cases told with
  | unanswered | accepted | acknowledged => rfl
  | ready | rejected => exact absurd returns (by decide)
  | sent isOpen | lost _ isOpen | refused _ isOpen => exact absurd returns isOpen.result.1

theorem Told.not_handed_of_false (told : Told failing payload request phase messages statuses handed)
    {ack : Str} (returned : phase = .returned (some ack)) (returns : phase.result = some false) :
    handed = [] := by
  cases told with
  | ready | sent | lost | refused | rejected => rfl
  | unanswered _ isOpen | accepted isOpen => exact absurd returned (isOpen.result.2 ack)
  | acknowledged => exact absurd returns (by decide)

theorem Told.send (told : Told failing payload request .ready messages statuses handed) :
    Told failing payload request .waiting (messages ++ [[payload]]) statuses handed := by
  cases told with
  | ready => exact .sent (.inl rfl)
  | sent isOpen | lost _ isOpen | unanswered _ isOpen | accepted isOpen | refused _ isOpen =>
      rcases isOpen with impossible | ⟨_, impossible⟩ <;> cases impossible

/-- A call may stop waiting at any time. -/
theorem Told.noAcknowledgement (fails : failing) (told : Told failing payload request .waiting messages statuses handed) :
    Told failing payload request (.returned none) messages statuses handed := by
  have isOpen : (SubmitPhase.returned none).Open failing := .inr ⟨fails, rfl⟩
  cases told with
  | sent => exact .sent isOpen
  | accepted => exact .accepted isOpen
  | lost => exact .lost fails isOpen
  | unanswered => exact .unanswered fails isOpen
  | refused => exact .refused fails isOpen

/-! ### All calls -/

variable {submits : Str → Option ShyguyRequest} {toBson : Json → Str}
  {fromBson : Str → Except Fault Json} {exchange after : Exchange} {event : Event}

/-- Every call is at a point where nothing misleads it. -/
def Truthful (failing : Prop) (submits : Str → Option ShyguyRequest) (toBson : Json → Str)
    (exchange : Exchange) : Prop :=
  ∀ identity request, submits identity = some request →
    Told failing (createRequest toBson request) request (exchange.calls identity)
      (exchange.messages identity) (exchange.statuses identity) (exchange.handedBy identity)

/-- The decoder of the JSON library gives back what its encoder made. -/
def Decodes (submits : Str → Option ShyguyRequest) (toBson : Json → Str)
    (fromBson : Str → Except Fault Json) : Prop :=
  ∀ identity request, submits identity = some request →
    fromBson (toBson (.ofRequest request)) = .ok (.ofRequest request)

theorem statuses_eq (identity : Str) (before after : List Reply) (reply : Reply) :
    (reply.identity = identity ∧
      sentBy identity ((before ++ reply :: after).map fun reply => (reply.identity, reply.status)) =
        sentBy identity (before.map fun reply => (reply.identity, reply.status)) ++
          reply.status :: sentBy identity (after.map fun reply => (reply.identity, reply.status))) ∨
    reply.identity ≠ identity ∧
      sentBy identity ((before ++ reply :: after).map fun reply => (reply.identity, reply.status)) =
        sentBy identity ((before ++ after).map fun reply => (reply.identity, reply.status)) := by
  rw [List.map_append, List.map_append, List.map_cons]
  exact sentBy_taken identity (reply.identity, reply.status) _ _

theorem Truthful.send (truthful : Truthful failing submits toBson exchange) {sender : Str}
    {sent : ShyguyRequest} (isSubmitted : submits sender = some sent)
    (isReady : exchange.calls sender = .ready) :
    Truthful failing submits toBson
      { exchange.setCall sender .waiting with
        toRouter := exchange.toRouter ++ [(sender, [createRequest toBson sent])] } := by
  intro identity request submitted
  have told := truthful identity request submitted
  simp only [messages, statuses, handedBy, setCall, sentBy_append] at told ⊢
  by_cases same : sender = identity
  · subst same
    cases isSubmitted.symm.trans submitted
    rw [isReady] at told
    rw [Function.update_self, sentBy_cons_self]
    exact told.send
  · rw [Function.update_of_ne (Ne.symm same), sentBy_cons_of_ne same]
    simpa [sentBy] using told

theorem Truthful.route (truthful : Truthful failing submits toBson exchange)
    (decodes : Decodes submits toBson fromBson) {sender : Str} {rest : List Str}
    {earlier later : List (Str × List Str)} {sendMultipart : Reply → SendMultipart}
    {replies : List Reply} {returned : Option ShyguyRequest}
    (held : exchange.toRouter = earlier ++ (sender, rest) :: later)
    (routed : routeData fromBson { recvMultipart := .received sender rest, sendMultipart } =
      { replies := replies, result := .ok returned })
    (possible : (∀ reply, sendMultipart reply = .sent) ∨ failing) :
    Truthful failing submits toBson
      { exchange with
        toRouter := earlier ++ later
        toClients := exchange.toClients ++ replies
        handed := (returned.map fun request => (sender, request)).toList ++ exchange.handed } := by
  intro identity request submitted
  have told := truthful identity request submitted
  simp only [messages, statuses, handedBy, held, List.map_append, sentBy_append] at told ⊢
  by_cases same : sender = identity
  · subst same
    rw [sentBy_cons_self] at told
    obtain ⟨isOpen, noneLeft, rfl, noStatus, noneHanded⟩ := told.of_message
    rw [noneLeft, noStatus, noneHanded]
    have unpacked := unpackRequest_createRequest request (decodes sender request submitted)
    rcases possible with sends | fails
    · obtain ⟨rfl, rfl⟩ := routed_sent sends routed unpacked
      simpa [sentBy, okReply] using Told.accepted isOpen
    · rcases routed_cases routed with ⟨_, alsoUnpacked, rfl, rfl | rfl⟩ | ⟨rfl, rfl | rfl⟩
      · cases unpacked.symm.trans alsoUnpacked
        simpa [sentBy, okReply] using Told.accepted isOpen
      · cases unpacked.symm.trans alsoUnpacked
        simpa [sentBy] using Told.unanswered fails isOpen
      · simpa [sentBy, errorReply] using Told.refused fails isOpen
      · simpa [sentBy] using Told.lost fails isOpen
  · rw [sentBy_cons_of_ne same] at told
    rcases routed_cases routed with ⟨_, _, rfl, rfl | rfl⟩ | ⟨rfl, rfl | rfl⟩
    all_goals simpa [sentBy, okReply, errorReply, same] using told

theorem Truthful.acknowledge (truthful : Truthful failing submits toBson exchange) {reply : Reply}
    {earlier later : List Reply} (held : exchange.toClients = earlier ++ reply :: later) :
    Truthful failing submits toBson
      { exchange.setCall reply.identity (.returned (some reply.status)) with
        toClients := earlier ++ later } := by
  intro identity request submitted
  have told := truthful identity request submitted
  simp only [messages, statuses, handedBy, setCall, held] at told ⊢
  rcases statuses_eq identity earlier later reply with ⟨rfl, taken⟩ | ⟨different, unchanged⟩
  · rw [taken] at told
    obtain ⟨_, noneLeft, noMessage, outcome⟩ := told.of_status
    rw [Function.update_self, List.map_append, sentBy_append, noneLeft, noMessage]
    rcases outcome with ⟨accepted, isHanded⟩ | ⟨fails, refused, noneHanded⟩
    · rw [accepted, isHanded]
      exact .acknowledged
    · rw [refused, noneHanded]
      exact .rejected fails
  · rw [unchanged] at told
    rw [Function.update_of_ne different.symm]
    exact told

theorem Truthful.intrude (truthful : Truthful failing submits toBson exchange) {sender : Str}
    (isPeer : submits sender = none) (rest : List Str) :
    Truthful failing submits toBson
      { exchange with toRouter := exchange.toRouter ++ [(sender, rest)] } := by
  intro identity request submitted
  have told := truthful identity request submitted
  have different : sender ≠ identity := by
    rintro rfl
    cases isPeer.symm.trans submitted
  simp only [messages, statuses, handedBy, sentBy_append] at told ⊢
  simpa [sentBy, different] using told

theorem Truthful.noAcknowledgement (truthful : Truthful failing submits toBson exchange)
    (fails : failing) {caller : Str} (waits : exchange.calls caller = .waiting) :
    Truthful failing submits toBson (exchange.setCall caller (.returned none)) := by
  intro identity request submitted
  have told := truthful identity request submitted
  simp only [messages, statuses, handedBy, setCall] at told ⊢
  by_cases same : caller = identity
  · subst same
    rw [waits] at told
    rw [Function.update_self]
    exact told.noAcknowledgement fails
  · rw [Function.update_of_ne (Ne.symm same)]
    exact told

theorem Truthful.loseMessage (truthful : Truthful failing submits toBson exchange)
    (fails : failing) {message : Str × List Str} {earlier later : List (Str × List Str)}
    (held : exchange.toRouter = earlier ++ message :: later) :
    Truthful failing submits toBson { exchange with toRouter := earlier ++ later } := by
  intro identity request submitted
  have told := truthful identity request submitted
  simp only [messages, statuses, handedBy, held] at told ⊢
  rcases sentBy_taken identity message earlier later with ⟨_, taken⟩ | ⟨_, unchanged⟩
  · rw [taken] at told
    obtain ⟨isOpen, noneLeft, _, noStatus, noneHanded⟩ := told.of_message
    rw [sentBy_append, noneLeft, noStatus, noneHanded]
    exact .lost fails isOpen
  · rwa [unchanged] at told

theorem Truthful.loseReply (truthful : Truthful failing submits toBson exchange)
    (fails : failing) {reply : Reply} {earlier later : List Reply}
    (held : exchange.toClients = earlier ++ reply :: later) :
    Truthful failing submits toBson { exchange with toClients := earlier ++ later } := by
  intro identity request submitted
  have told := truthful identity request submitted
  simp only [messages, statuses, handedBy, held] at told ⊢
  rcases statuses_eq identity earlier later reply with ⟨_, taken⟩ | ⟨_, unchanged⟩
  · rw [taken] at told
    obtain ⟨isOpen, noneLeft, noMessage, outcome⟩ := told.of_status
    rw [List.map_append, sentBy_append, noneLeft, noMessage]
    rcases outcome with ⟨_, isHanded⟩ | ⟨_, _, noneHanded⟩
    · rw [isHanded]
      exact .unanswered fails isOpen
    · rw [noneHanded]
      exact .lost fails isOpen
  · rwa [unchanged] at told

theorem Truthful.step (truthful : Truthful failing submits toBson exchange)
    (decodes : Decodes submits toBson fromBson)
    (step : Step submits toBson fromBson exchange event after)
    (possible : event.Reliable ∨ failing) :
    Truthful failing submits toBson after := by
  cases step with
  | send isSubmitted isReady => exact truthful.send isSubmitted isReady
  | intrude isPeer _ => exact truthful.intrude isPeer _
  | route held routed => exact truthful.route decodes held routed possible
  | acknowledge held _ => exact truthful.acknowledge held
  | noAcknowledgement waits => exact truthful.noAcknowledgement (possible.resolve_left id) waits
  | loseMessage held => exact truthful.loseMessage (possible.resolve_left id) held
  | loseReply held => exact truthful.loseReply (possible.resolve_left id) held

theorem Reachable.truthful {kind : Event → Prop}
    (reachable : Reachable submits toBson fromBson kind exchange)
    (decodes : Decodes submits toBson fromBson)
    (possible : ∀ event, kind event → event.Reliable ∨ failing) :
    Truthful failing submits toBson exchange := by
  refine Transition.invariant_of_reflTransGen (fun _ _ truthful moves => ?_) ?_ reachable
  · obtain ⟨event, isKind, step⟩ := moves
    exact truthful.step decodes step (possible event isKind)
  · intro identity request _
    exact .ready

/-! ### A call that is acknowledged -/

def etlCall (identity : Str) : Option ShyguyRequest :=
  if identity = ascii "dealer" then some createEtl else none

theorem failsWithin_decodeEtl (payload : Str) : FailsWithin Throws (decodeEtl payload) := by
  unfold decodeEtl
  split
  · exact failsWithin_ok _ _
  · exact failsWithin_error rfl

theorem decodes_etlCall : Decodes etlCall (fun _ => createEtlPayload) decodeEtl := by
  intro identity request submitted
  unfold etlCall at submitted
  split at submitted
  · cases submitted
    exact if_pos rfl
  · cases submitted

def etlWaiting : Exchange :=
  { initial.setCall (ascii "dealer") .waiting with
    toRouter := [(ascii "dealer", [createEtlPayload])] }

def etlAnswered : Exchange :=
  { etlWaiting with
    toRouter := []
    toClients := [okReply (ascii "dealer")]
    handed := [(ascii "dealer", createEtl)] }

def etlAcknowledged : Exchange :=
  { etlAnswered.setCall (ascii "dealer") (.returned (some (ascii "OK"))) with toClients := [] }

theorem routeData_etl :
    routeData decodeEtl {
        recvMultipart := .received (ascii "dealer") [createEtlPayload]
        sendMultipart := fun _ => .sent } =
      { replies := [okReply (ascii "dealer")], result := .ok (some createEtl) } := by
  have decoded : decodeEtl createEtlPayload = .ok (.ofRequest createEtl) := if_pos rfl
  have reads : unpackRequest decodeEtl createEtlPayload = .ok createEtl := by
    rw [unpackRequest, bind_of_ok decoded, Json.getRequest_ofRequest]
  rw [routeData_received (Nat.le_refl _), List.headD_cons, routeReceived, reads]

/-- The call is made, read by the router and acknowledged. -/
theorem reachable_etlAcknowledged :
    Reachable etlCall (fun _ => createEtlPayload) decodeEtl Event.Reliable etlAcknowledged := by
  have sends : (Event.route fun _ => .sent).Reliable := fun _ => rfl
  have sent : Step etlCall (fun _ => createEtlPayload) decodeEtl initial .send etlWaiting :=
    .send (if_pos rfl) rfl
  have message : etlWaiting.toRouter = [] ++ (ascii "dealer", [createEtlPayload]) :: [] := rfl
  have routes : Step etlCall (fun _ => createEtlPayload) decodeEtl etlWaiting _ etlAnswered :=
    .route message routeData_etl
  have reply : etlAnswered.toClients = [] ++ okReply (ascii "dealer") :: [] := rfl
  have acknowledges : Step etlCall (fun _ => createEtlPayload) decodeEtl etlAnswered .acknowledge
      etlAcknowledged := .acknowledge reply (by decide)
  refine ((Relation.ReflTransGen.refl.tail ?_).tail ⟨_, sends, routes⟩).tail
    ⟨.acknowledge, trivial, acknowledges⟩
  exact ⟨.send, trivial, sent⟩

/-! ### What a result tells -/

/-- What the result of a call says about its request. -/
structure TellsHanded (exchange : Exchange) (identity : Str) (request : ShyguyRequest) : Prop where
  atMostOnce : exchange.handedBy identity = [] ∨ exchange.handedBy identity = [request]
  submitted : (exchange.calls identity).result = some true → exchange.handedBy identity = [request]
  refused : ∀ ack, exchange.calls identity = .returned (some ack) →
    (exchange.calls identity).result = some false → exchange.handedBy identity = []

/-- However messages and replies get lost, sockets fail and other peers behave:
the router returns no request twice, a call that returns `true` had its request
returned, and a call that got another acknowledgement did not. -/
theorem result_tells_handed {kind : Event → Prop}
    (reachable : Reachable submits toBson fromBson kind exchange)
    (decodes : Decodes submits toBson fromBson) {identity : Str} {request : ShyguyRequest}
    (submitted : submits identity = some request) : TellsHanded exchange identity request := by
  have truthful : Truthful True submits toBson exchange :=
    reachable.truthful decodes fun _ _ => .inr trivial
  have told := truthful identity request submitted
  exact ⟨told.handed_cases, told.handed_of_true, fun _ => told.not_handed_of_false⟩

/-- The acknowledged call had its request returned. -/
theorem result_tells_handed_etl :
    (etlAcknowledged.calls (ascii "dealer")).result = some true ∧
      TellsHanded etlAcknowledged (ascii "dealer") createEtl :=
  ⟨by decide, result_tells_handed reachable_etlAcknowledged decodes_etlCall (if_pos rfl)⟩

/-! ### Delivery -/

/-- No message has frames for which the router has no place. -/
def Fits (exchange : Exchange) : Prop :=
  ∀ message ∈ exchange.toRouter, message.2.length ≤ 1

theorem Fits.step (fits : Fits exchange)
    (step : Step submits toBson fromBson exchange event after) : Fits after := by
  have kept : ∀ {message : Str × List Str} {earlier later : List (Str × List Str)},
      exchange.toRouter = earlier ++ message :: later →
      ∀ other ∈ earlier ++ later, other.2.length ≤ 1 := by
    intro message earlier later held other member
    refine fits other ?_
    rw [held]
    rcases List.mem_append.mp member with early | late
    · exact List.mem_append_left _ early
    · exact List.mem_append_right _ (List.mem_cons_of_mem _ late)
  cases step with
  | send _ _ =>
      intro message member
      rcases List.mem_append.mp member with old | new
      · exact fits message old
      · rw [List.mem_singleton.mp new]
        exact Nat.le_refl 1
  | intrude _ short =>
      intro message member
      rcases List.mem_append.mp member with old | new
      · exact fits message old
      · rwa [List.mem_singleton.mp new]
  | route held _ => exact kept held
  | loseMessage held => exact kept held
  | acknowledge _ _ => exact fits
  | noAcknowledgement _ => exact fits
  | loseReply _ => exact fits

theorem Reachable.fits {kind : Event → Prop}
    (reachable : Reachable submits toBson fromBson kind exchange) : Fits exchange := by
  refine Transition.invariant_of_reflTransGen (fun _ _ fits moves => ?_) ?_ reachable
  · obtain ⟨_, _, step⟩ := moves
    exact fits.step step
  · intro message member
    cases member

/-- What is on its way, a message counting twice for the reply it may cause. -/
def onTheWay (exchange : Exchange) : Nat :=
  2 * exchange.toRouter.length + exchange.toClients.length

theorem Moves.onTheWay_lt (moves : Moves submits toBson fromBson Event.Delivers exchange after) :
    onTheWay after < onTheWay exchange := by
  obtain ⟨event, delivers, step⟩ := moves
  cases step with
  | send _ _ | intrude _ _ | noAcknowledgement _ | loseMessage _ | loseReply _ =>
      exact absurd delivers id
  | @route _ _ _ _ _ replies _ held routed =>
      have atMostOne : replies.length ≤ 1 := by
        rcases routed_cases routed with ⟨_, _, _, rfl | rfl⟩ | ⟨_, rfl | rfl⟩ <;> simp
      simp only [onTheWay, held, List.length_append, List.length_cons]
      omega
  | acknowledge held _ =>
      simp only [onTheWay, setCall, held, List.length_append, List.length_cons]
      omega

theorem exists_reply {identity status : Str} {rest : List Str}
    (told : exchange.statuses identity = status :: rest) :
    ∃ reply earlier later, reply.identity = identity ∧
      exchange.toClients = earlier ++ reply :: later := by
  have member : status ∈ exchange.statuses identity := told ▸ List.mem_cons_self
  obtain ⟨_, listed, isStatus⟩ := List.mem_filterMap.mp member
  obtain ⟨reply, held, rfl⟩ := List.mem_map.mp listed
  obtain ⟨earlier, later, split⟩ := List.append_of_mem held
  refine ⟨reply, earlier, later, ?_, split⟩
  by_contra different
  rw [if_neg different] at isStatus
  cases isStatus

/-- Where nothing can be delivered any more nothing is on its way to the router,
and no call waits that has a reply. -/
theorem Fits.nothing_left (fits : Fits exchange)
    (decoder : ∀ payload, FailsWithin Throws (fromBson payload))
    (settled : ∀ after, ¬ Moves submits toBson fromBson Event.Delivers exchange after) :
    exchange.toRouter = [] ∧ ∀ identity, exchange.calls identity = .waiting →
      exchange.statuses identity = [] := by
  constructor
  · cases held : exchange.toRouter with
    | nil => rfl
    | cons message later =>
        have short : message.2.length ≤ 1 := fits message (held ▸ List.mem_cons_self)
        have isFirst : exchange.toRouter = [] ++ (message.1, message.2) :: later := held
        have delivers : (Event.route fun _ => .sent).Delivers := fun _ => rfl
        obtain ⟨_, _, routed⟩ := exists_routed decoder delivers short
        exact absurd ⟨_, delivers, .route isFirst routed⟩ (settled _)
  · intro identity waits
    cases told : exchange.statuses identity with
    | nil => rfl
    | cons status rest =>
        obtain ⟨reply, earlier, later, rfl, held⟩ := exists_reply told
        exact absurd ⟨.acknowledge, trivial, .acknowledge held waits⟩ (settled _)

/-- Where nothing fails, deliveries come to an end, and then every call that was
made has returned `true` and its request was returned by the router once. -/
theorem reliable_calls_succeed (decoder : ∀ payload, FailsWithin Throws (fromBson payload))
    (decodes : Decodes submits toBson fromBson)
    (reachable : Reachable submits toBson fromBson Event.Reliable exchange) :
    Acc (fun after before => Moves submits toBson fromBson Event.Delivers before after) exchange ∧
      ((∀ after, ¬ Moves submits toBson fromBson Event.Delivers exchange after) →
        ∀ identity request, submits identity = some request →
          exchange.calls identity ≠ .ready →
          (exchange.calls identity).result = some true ∧
            exchange.handedBy identity = [request]) := by
  constructor
  · have anywhere : (fun _ : Exchange => True) exchange := trivial
    exact Transition.acc_of_measure onTheWay (fun _ _ _ _ => trivial)
      (fun _ _ _ moves => moves.onTheWay_lt) anywhere
  · intro settled identity request submitted made
    have truthful : Truthful False submits toBson exchange :=
      reachable.truthful decodes fun _ reliable => .inl reliable
    have told := truthful identity request submitted
    obtain ⟨noMessage, noStatus⟩ := reachable.fits.nothing_left decoder settled
    have noMessages : exchange.messages identity = [] := by
      rw [messages, noMessage]
      rfl
    have answered := noStatus identity
    rw [noMessages] at told
    generalize exchange.calls identity = phase at told made answered ⊢
    generalize exchange.statuses identity = statuses at told answered
    generalize exchange.handedBy identity = handed at told ⊢
    cases told with
    | ready => exact absurd rfl made
    | accepted isOpen =>
        obtain rfl := isOpen.resolve_right fun failed => failed.1
        cases answered rfl
    | acknowledged => exact ⟨by decide, rfl⟩
    | lost fails | unanswered fails | refused fails | rejected fails => exact absurd fails id

/-- After the one call nothing is left to deliver. -/
theorem reliable_calls_succeed_etl :
    (etlAcknowledged.calls (ascii "dealer")).result = some true ∧
      etlAcknowledged.handedBy (ascii "dealer") = [createEtl] := by
  refine (reliable_calls_succeed failsWithin_decodeEtl decodes_etlCall
    reachable_etlAcknowledged).2 ?_ _ _ (if_pos rfl) (by decide)
  rintro after ⟨event, delivers, step⟩
  cases step with
  | send _ _ | intrude _ _ | noAcknowledgement _ | loseMessage _ | loseReply _ =>
      exact absurd delivers id
  | route held _ => exact List.cons_ne_nil _ _ (List.append_eq_nil_iff.mp held.symm).2
  | acknowledge held _ => exact List.cons_ne_nil _ _ (List.append_eq_nil_iff.mp held.symm).2

end Exchange

end BabyLuigi
