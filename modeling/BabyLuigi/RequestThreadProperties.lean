import BabyLuigi.BlockingQueueProperties
import BabyLuigi.ConcurrentShyguyProperties
import BabyLuigi.RequestThread
import BabyLuigi.ScheduleHistoryProperties
import BabyLuigi.Support.Transition

/-! The server behind its threads handles the submitted requests one at a time
and in their order; scheduled executions in between change none of its tables. -/

set_option autoImplicit false

namespace BabyLuigi

namespace ConcurrentShyguy

variable {Store : Type}

/-- Two states that differ at most in the runs they have queued. -/
structure SameTables (state other : ConcurrentShyguy Store) : Prop where
  taskMap : other.taskMap = state.taskMap
  dags : other.dags = state.dags
  schedules : other.schedules = state.schedules
  storage : other.storage = state.storage

def withRequests (state : ConcurrentShyguy Store) (queue : List (TaskRequest Str))
    (sequence : Nat) : ConcurrentShyguy Store :=
  { state with requestQueue := queue, taskRequestSequence := sequence }

theorem SameTables.eq_withRequests {state other : ConcurrentShyguy Store}
    (same : SameTables state other) :
    other = state.withRequests other.requestQueue other.taskRequestSequence := by
  obtain ⟨taskMap, dags, schedules, storage⟩ := same
  cases other
  cases taskMap
  cases dags
  cases schedules
  cases storage
  rfl

theorem sameTables_withRequests (state : ConcurrentShyguy Store) (queue : List (TaskRequest Str))
    (sequence : Nat) : SameTables state (state.withRequests queue sequence) :=
  ⟨rfl, rfl, rfl, rfl⟩

def Handled.withRequests (handled : Handled Store) (queue : List (TaskRequest Str))
    (sequence : Nat) : Handled Store :=
  handled.map fun result => (result.1.withRequests queue sequence, result.2)

variable (environment : Environment Store) (state : ConcurrentShyguy Store)
  (queue : List (TaskRequest Str)) (sequence : Nat)

theorem persist_withRequests {Value : Type} (call : Store → Store × Outcome Value) :
    (state.withRequests queue sequence).persist call =
      (state.persist call).map fun after => after.withRequests queue sequence := by
  cases attached : state.storage with
  | none => simp [persist, withRequests, attached, Except.map]
  | some store =>
      cases called : call store with
      | mk stored outcome =>
          cases outcome <;> simp [persist, withRequests, attached, called, Except.map]

theorem createDag_withRequests (dag : ShyguyDag) :
    createDag environment (state.withRequests queue sequence) dag =
      (createDag environment state dag).withRequests queue sequence := by
  by_cases present : dag.name ∈ state.dags
  · simp [createDag, withRequests, present, Handled.withRequests, Except.map]
  · have moved := fun dags schedules =>
      persist_withRequests { state with dags := dags, schedules := schedules } queue sequence
        fun store => environment.storage.upsertDag store dag none
    simp only [withRequests] at moved
    simp only [createDag, withRequests, present, if_false, UnorderedMap.emplace_of_notMem present,
      moved]
    generalize persist _ _ = persisted
    cases persisted <;> rfl

theorem removeDag_withRequests (dag : ShyguyDag) :
    removeDag environment (state.withRequests queue sequence) dag =
      (removeDag environment state dag).withRequests queue sequence := by
  by_cases present : dag.name ∈ state.dags
  · have moved := fun dags schedules =>
      persist_withRequests { state with dags := dags, schedules := schedules } queue sequence
        fun store => environment.storage.eraseDag store dag.name none
    simp only [withRequests] at moved
    simp only [removeDag, withRequests, present, if_true, moved]
    generalize persist _ _ = persisted
    cases persisted <;> rfl
  · simp [removeDag, withRequests, present, Handled.withRequests, Except.map]

theorem makeTaskMetadata_withRequests (task : ShyguyTask) :
    makeTaskMetadata environment (state.withRequests queue sequence) task =
      makeTaskMetadata environment state task := rfl

theorem persistTask_withRequests (task : ShyguyTask) (metadata : Option TaskMetadata) :
    persistTask environment (state.withRequests queue sequence) task metadata =
      (persistTask environment state task metadata).map
        fun after => after.withRequests queue sequence := by
  have unchanged := persist_withRequests state queue sequence
    fun store => environment.storage.upsertTask store task none none metadata
  have sameStorage : (state.withRequests queue sequence).storage = state.storage := rfl
  unfold persistTask
  rw [sameStorage]
  cases state.storage with
  | none => exact unchanged
  | some store =>
      cases task.fileContent with
      | none => exact unchanged
      | some content =>
          cases task.filename with
          | none => exact unchanged
          | some filename =>
              dsimp only
              generalize environment.storage.putBlob store content = put
              obtain ⟨stored, outcome⟩ := put
              have moved := fun blobId =>
                persist_withRequests { state with storage := some stored } queue sequence
                  fun store => environment.storage.upsertTask store task blobId none metadata
              cases outcome with
              | exception fault => rfl
              | value id => exact moved (some id)
              | error error => exact moved none

theorem eraseStoredTask_withRequests (task : ShyguyTask) :
    eraseStoredTask environment (state.withRequests queue sequence) task =
      (eraseStoredTask environment state task).withRequests queue sequence := by
  have moved := persist_withRequests state queue sequence
    fun store => environment.storage.eraseTask store task.associatedDag task.name none
  simp only [eraseStoredTask, moved]
  generalize persist _ _ = persisted
  cases persisted <;> rfl

theorem executeTask_withRequests (task : ShyguyTask) :
    executeTask environment (state.withRequests queue sequence) task =
      (executeTask environment state task).withRequests queue sequence := by
  simp only [executeTask, withRequests]
  cases state.dags.lookup task.associatedDag with
  | none => rfl
  | some graph =>
      dsimp only
      generalize graph.runOrder _ = order
      cases order with
      | error fault => rfl
      | ok order => cases order <;> rfl

theorem createTask_withRequests (task : ShyguyTask) :
    createTask environment (state.withRequests queue sequence) task =
      (createTask environment state task).withRequests queue sequence := by
  simp only [createTask, withRequests]
  cases state.dags.lookup task.associatedDag with
  | none => rfl
  | some dag =>
      dsimp only
      generalize dag.pushTask environment.traversal task.name task.dependencyNames = pushed
      cases pushed with
      | error fault => rfl
      | ok result =>
          obtain ⟨extended, inserted⟩ := result
          cases inserted with
          | error error => rfl
          | ok _ =>
              have described := makeTaskMetadata_withRequests environment
                { state with
                  taskMap := state.taskMap.insert task.name task
                  dags := state.dags.insert task.associatedDag extended } queue sequence task
              have moved := fun metadata => persistTask_withRequests environment
                { state with
                  taskMap := state.taskMap.insert task.name task
                  dags := state.dags.insert task.associatedDag extended } queue sequence task metadata
              simp only [withRequests] at described moved
              simp only [described, moved]
              generalize (if state.storage.isSome then
                makeTaskMetadata environment _ task else _) = metadata
              cases metadata with
              | error fault => rfl
              | ok metadata =>
                  dsimp only
                  generalize persistTask environment _ task metadata = persisted
                  cases persisted <;> rfl

theorem removeTask_withRequests (task : ShyguyTask) :
    removeTask environment (state.withRequests queue sequence) task =
      (removeTask environment state task).withRequests queue sequence := by
  have erased := fun dags =>
    eraseStoredTask_withRequests environment { state with dags := dags } queue sequence task
  have unchanged := erased state.dags
  simp only [withRequests] at erased unchanged
  simp only [removeTask, withRequests]
  cases state.dags.lookup task.associatedDag with
  | none => exact unchanged
  | some dag =>
      dsimp only
      generalize dag.removeTask task.name = removed
      obtain ⟨reduced, outcome⟩ := removed
      cases outcome with
      | error error => rfl
      | ok _ => exact erased _

theorem executeAt_withRequests {after : ConcurrentShyguy Store} {dag : ShyguyDag}
    {scheduledTime : Int} {answer : CommandResultType}
    (result : executeAt environment state dag scheduledTime = .ok (after, answer)) :
    ∃ otherAfter, executeAt environment (state.withRequests queue sequence) dag scheduledTime =
      .ok (otherAfter, answer) ∧ SameTables after otherAfter := by
  have sameRunner : makeRunner environment (state.withRequests queue sequence) dag.name =
      makeRunner environment state dag.name := rfl
  have sameDags : (state.withRequests queue sequence).dags = state.dags := rfl
  unfold executeAt at result ⊢
  rw [sameDags, sameRunner]
  cases found : state.dags.lookup dag.name with
  | none =>
      simp only [found] at result ⊢
      cases result
      exact ⟨_, rfl, ⟨rfl, rfl, rfl, rfl⟩⟩
  | some graph =>
      simp only [found] at result ⊢
      cases ordered : graph.runOrder (environment.traversal.order graph.adjacencyList) with
      | error fault => simp [ordered] at result
      | ok order =>
          simp only [ordered] at result ⊢
          cases order with
          | none =>
              cases result
              exact ⟨_, rfl, ⟨rfl, rfl, rfl, rfl⟩⟩
          | some order =>
              cases collected : order.mapM (makeRunner environment state dag.name) with
              | error fault => simp [collected] at result
              | ok runners =>
                  simp only [collected] at result ⊢
                  cases result
                  exact ⟨_, rfl, ⟨rfl, rfl, rfl, rfl⟩⟩

variable {environment state} {after other : ConcurrentShyguy Store} {request : ShyguyRequest}
  {answer : CommandResultType}

theorem sameTables_of_handled {handled otherHandled : Handled Store}
    (moved : otherHandled = handled.withRequests queue sequence)
    (result : handled = .ok (after, answer)) :
    ∃ otherAfter, otherHandled = .ok (otherAfter, answer) ∧ SameTables after otherAfter := by
  subst moved
  subst result
  exact ⟨_, rfl, sameTables_withRequests after queue sequence⟩

/-- A request is answered alike, and leaves the same tables, whatever runs have
been queued before it. -/
theorem SameTables.process (same : SameTables state other)
    (result : process environment state request = .ok (after, answer)) :
    ∃ otherAfter, process environment other request = .ok (otherAfter, answer) ∧
      SameTables after otherAfter := by
  rw [same.eq_withRequests]
  generalize other.requestQueue = queue
  generalize other.taskRequestSequence = sequence
  obtain ⟨data, command⟩ := request
  cases data with
  | monostate =>
      cases result
      exact ⟨_, rfl, sameTables_withRequests ..⟩
  | dag dag =>
      cases command with
      | create => exact sameTables_of_handled _ _ (createDag_withRequests ..) result
      | remove => exact sameTables_of_handled _ _ (removeDag_withRequests ..) result
      | execute => exact executeAt_withRequests _ _ _ _ result
      | _ =>
          cases result
          exact ⟨_, rfl, sameTables_withRequests ..⟩
  | task task =>
      cases command with
      | create => exact sameTables_of_handled _ _ (createTask_withRequests ..) result
      | remove => exact sameTables_of_handled _ _ (removeTask_withRequests ..) result
      | execute => exact sameTables_of_handled _ _ (executeTask_withRequests ..) result
      | _ =>
          cases result
          exact ⟨_, rfl, sameTables_withRequests ..⟩

end ConcurrentShyguy

open ConcurrentShyguy

/-- What the command is to the request handler: a scheduled execution is a
request to execute the DAG. -/
def Carried.entry : Carried → ShyguyRequest × CommandResultType
  | .answered request answer => (request, answer)
  | .scheduled dag answer => ({ data := .dag dag, command := .execute }, answer)

/-- The requests of the input queue among the commands, with their answers. -/
def answeredRequests : List Carried → History
  | [] => []
  | .answered request answer :: rest => (request, answer) :: answeredRequests rest
  | .scheduled _ _ :: rest => answeredRequests rest

def RequestPhase.inHand : RequestPhase → List ShyguyRequest
  | .holding request => [request]
  | _ => []

/-- The requests that the thread can still answer before it reads the flag. -/
def RequestPhase.unread : RequestPhase → Nat
  | .dequeuing | .holding _ => 1
  | _ => 0

theorem RequestPhase.reverse_inHand (phase : RequestPhase) :
    phase.inHand.reverse = phase.inHand := by
  cases phase <;> rfl

namespace RequestServer

variable {Store : Type} {storage : Option Store} {server after : RequestServer Store}

abbrev Handles (storage : Option Store) : ConcurrentShyguy Store → History → Prop :=
  ConcurrentShyguy.Run storage fun _ _ _ _ => True

/-- The queue keeps its order, the thread has answered what it was given, and
the server is where a run of requests leaves it. -/
structure Sequential (storage : Option Store) (server : RequestServer Store) : Prop where
  queue : server.ioQueue.InOrder
  taken : BlockingQueue.returnedItems server.ioQueue.events =
    server.phase.inHand ++ (answeredRequests server.carried).map Prod.fst
  history : Handles storage server.shyguy (server.carried.map Carried.entry)
  alone : ∃ alone, Handles storage alone (answeredRequests server.carried) ∧
    SameTables server.shyguy alone

theorem sequential_initial (storage : Option Store) (now : Int) :
    Sequential storage (initial storage now) where
  queue := BlockingQueue.inOrder_initial now
  taken := rfl
  history := .start
  alone := ⟨_, .start, ⟨rfl, rfl, rfl, rfl⟩⟩

/-- The queue moves on without giving a request to the thread. -/
theorem Sequential.setQueue (sequential : Sequential storage server)
    {action : InputAction Unit ShyguyRequest} {queue : BlockingQueue Unit ShyguyRequest}
    (step : server.ioQueue.Step action queue) (notTake : ∀ caller item, action ≠ .take caller item)
    {phase : RequestPhase} (inHand : phase.inHand = server.phase.inHand) :
    Sequential storage { server with phase := phase, ioQueue := queue } where
  queue := sequential.queue.step step
  taken := by
    rw [step.returnedItems_eq notTake, inHand]
    exact sequential.taken
  history := sequential.history
  alone := sequential.alone

/-- The thread moves on without touching the queue. -/
theorem Sequential.setPhase (sequential : Sequential storage server) {phase : RequestPhase}
    (inHand : phase.inHand = server.phase.inHand) (terminator : Bool) :
    Sequential storage { server with terminator := terminator, phase := phase } where
  queue := sequential.queue
  taken := by
    rw [inHand]
    exact sequential.taken
  history := sequential.history
  alone := sequential.alone

theorem Sequential.step (sequential : Sequential storage server) (step : Step server after) :
    Sequential storage after := by
  cases step with
  | submit request enqueued => exact sequential.setQueue enqueued (by simp) rfl
  | loadTrue head _ called => exact sequential.setQueue called (by simp) (by rw [head]; rfl)
  | loadFalse head _ => exact sequential.setPhase (by rw [head]; rfl) _
  | wait _ waited => exact sequential.setQueue waited (by simp) rfl
  | wake _ woken => exact sequential.setQueue woken (by simp) rfl
  | timeOut dequeuing timedOut =>
      exact sequential.setQueue timedOut (by simp) (by rw [dequeuing]; rfl)
  | take dequeuing taken =>
      refine ⟨sequential.queue.step taken, ?_, sequential.history, sequential.alone⟩
      rw [taken.returnedItems_take, sequential.taken, dequeuing]
      rfl
  | @process environment request shyguy answer holding result =>
      refine ⟨sequential.queue, ?_, .handle environment request sequential.history trivial result,
        ?_⟩
      · rw [sequential.taken, holding]
        rfl
      · obtain ⟨alone, handles, same⟩ := sequential.alone
        obtain ⟨aloneAfter, aloneResult, stillSame⟩ := same.process result
        exact ⟨aloneAfter, .handle environment request handles trivial aloneResult, stillSame⟩
  | notify processed => exact sequential.setPhase (by rw [processed]; rfl) _
  | @executeAt environment dag scheduledTime shyguy answer result =>
      obtain ⟨alone, handles, same⟩ := sequential.alone
      refine ⟨sequential.queue, sequential.taken, ?_, alone, handles, ?_⟩
      · exact .handle { environment with steadyNow := scheduledTime } _ sequential.history trivial
          result
      · obtain ⟨_, _, rfl⟩ := executeAt_eq result
        exact ⟨same.taskMap, same.dags, same.schedules, same.storage⟩
  | stop => exact sequential.setPhase rfl _
  | tick later ticked => exact sequential.setQueue ticked (by simp) rfl

theorem Reachable.sequential {now : Int} (reachable : Reachable storage now server) :
    Sequential storage server :=
  Transition.invariant_of_reflTransGen (fun _ _ sequential step => sequential.step step)
    (sequential_initial storage now) reachable

/-- In every interleaving of the submitting threads, the request thread and the
schedule thread, the server is where a sequential run of its commands leaves
it; the submitted requests are answered in their order, none twice and none
passed over; and its DAGs, schedules, tasks and storage are those of a run of
the answered requests alone. -/
theorem reachable_in_order {now : Int} (reachable : Reachable storage now server) :
    ((answeredRequests server.carried).map Prod.fst).reverse ++ server.phase.inHand ++
      server.ioQueue.q = (BlockingQueue.enqueuedItems server.ioQueue.events).reverse ∧
    ConcurrentShyguy.Run storage (fun _ _ _ _ => True) server.shyguy
      (server.carried.map Carried.entry) ∧
    ∃ alone, ConcurrentShyguy.Run storage (fun _ _ _ _ => True) alone
      (answeredRequests server.carried) ∧ SameTables server.shyguy alone := by
  have sequential := reachable.sequential
  refine ⟨?_, sequential.history, sequential.alone⟩
  have order := sequential.queue
  rw [BlockingQueue.InOrder, sequential.taken, List.reverse_append,
    RequestPhase.reverse_inHand] at order
  exact order

/-- A creation is answered, and the schedule thread starts a run of the DAG. -/
theorem reachable_in_order_etl : ∃ server : RequestServer Unit, Reachable none 0 server ∧
    server.carried.length = 2 ∧ (answeredRequests server.carried).length = 1 ∧
    ∃ alone, ConcurrentShyguy.Run none (fun _ _ _ _ => True) alone
      (answeredRequests server.carried) ∧ SameTables server.shyguy alone := by
  have run : ∃ server : RequestServer Unit, Reachable none 0 server ∧
      server.carried.length = 2 ∧ (answeredRequests server.carried).length = 1 := by
    refine ⟨_, .tail (.tail (.tail (.tail (.tail .refl
      (.submit (dagRequest .create (ascii "etl") none) (.enqueue _)))
      (.loadTrue rfl rfl (.dequeueWait () requestTimeout rfl)))
      (.take rfl (.take () rfl rfl)))
      (.process detachedEnvironment rfl rfl))
      (.executeAt detachedEnvironment { name := ascii "etl", schedule := none } 7 rfl), rfl, rfl⟩
  obtain ⟨server, reachable, both, one⟩ := run
  exact ⟨server, reachable, both, one, (reachable_in_order reachable).2.2⟩

/-! ### Shutdown -/

/-- What has become of the requests since the flag was cleared: those answered
since, the one in hand and the queue are what was in hand and queued then and
what was submitted since, in this order. -/
structure Stopped (start server : RequestServer Store) (answered submitted : List ShyguyRequest) :
    Prop where
  flag : server.terminator = false
  answeredSince : ((answeredRequests server.carried).map Prod.fst).reverse =
    ((answeredRequests start.carried).map Prod.fst).reverse ++ answered
  submittedSince : BlockingQueue.enqueuedItems server.ioQueue.events =
    submitted.reverse ++ BlockingQueue.enqueuedItems start.ioQueue.events
  kept : answered ++ server.phase.inHand ++ server.ioQueue.q =
    start.phase.inHand ++ start.ioQueue.q ++ submitted
  bound : answered.length + server.phase.unread ≤ start.phase.unread

section Stopped

variable {start : RequestServer Store} {answered submitted : List ShyguyRequest}

/-- The thread moves on with what it has in hand, and takes no more upon itself. -/
theorem Stopped.setPhase (stopped : Stopped start server answered submitted)
    {phase : RequestPhase} {queue : BlockingQueue Unit ShyguyRequest}
    (inHand : phase.inHand = server.phase.inHand) (fewer : phase.unread ≤ server.phase.unread)
    (queued : queue.q = server.ioQueue.q ∧ BlockingQueue.enqueuedItems queue.events =
      BlockingQueue.enqueuedItems server.ioQueue.events) :
    Stopped start { server with phase := phase, ioQueue := queue } answered submitted where
  flag := stopped.flag
  answeredSince := stopped.answeredSince
  submittedSince := queued.2.trans stopped.submittedSince
  kept := by
    simp only [inHand, queued.1]
    exact stopped.kept
  bound := (Nat.add_le_add_left fewer _).trans stopped.bound

theorem Stopped.step (stopped : Stopped start server answered submitted)
    (step : Step server after) : ∃ answered submitted, Stopped start after answered submitted := by
  have ⟨flag, isAnswered, isSubmitted, kept, bound⟩ := stopped
  cases step with
  | submit request enqueued =>
      cases enqueued with
      | enqueue _ =>
          refine ⟨answered, submitted ++ [request], flag, isAnswered, ?_, ?_, bound⟩
          · simp [BlockingQueue.enqueuedItems, isSubmitted]
          · simpa using congrArg (· ++ [request]) kept
  | loadTrue _ isSet _ => cases flag.symm.trans isSet
  | loadFalse head _ => exact ⟨_, _, stopped.setPhase (by rw [head]; rfl) (Nat.zero_le _) ⟨rfl, rfl⟩⟩
  | wait _ waited => exact ⟨_, _, stopped.setPhase rfl le_rfl (waited.q_eq (by simp) (by simp))⟩
  | wake _ woken => exact ⟨_, _, stopped.setPhase rfl le_rfl (woken.q_eq (by simp) (by simp))⟩
  | timeOut dequeuing timedOut =>
      exact ⟨_, _, stopped.setPhase (by rw [dequeuing]; rfl) (Nat.zero_le _)
        (timedOut.q_eq (by simp) (by simp))⟩
  | take dequeuing taken =>
      cases taken with
      | take _ _ held =>
          refine ⟨answered, submitted, flag, isAnswered, isSubmitted, ?_, ?_⟩
          · rw [← kept, dequeuing, held]
            simp [RequestPhase.inHand]
          · rw [dequeuing] at bound
            exact bound
  | @process environment request shyguy answer holding result =>
      refine ⟨answered ++ [request], submitted, flag, ?_, isSubmitted, ?_, ?_⟩
      · simp [answeredRequests, isAnswered]
      · rw [← kept, holding]
        simp [RequestPhase.inHand]
      · rw [holding] at bound
        simpa [RequestPhase.unread] using bound
  | notify processed =>
      exact ⟨_, _, stopped.setPhase (by rw [processed]; rfl) (Nat.zero_le _) ⟨rfl, rfl⟩⟩
  | executeAt _ _ _ _ => exact ⟨_, _, flag, isAnswered, isSubmitted, kept, bound⟩
  | stop => exact ⟨_, _, rfl, isAnswered, isSubmitted, kept, bound⟩
  | tick _ ticked => exact ⟨_, _, stopped.setPhase rfl le_rfl (ticked.q_eq (by simp) (by simp))⟩

end Stopped

/-- Once the flag is cleared, the thread answers at most the request it holds,
or the one it takes in the wait it is in. All others, whenever they were
submitted, stay in the queue in their order. -/
theorem stopped_answers_unread (stopped : server.terminator = false)
    (run : Relation.ReflTransGen Step server after) :
    ∃ answered submitted,
      ((answeredRequests after.carried).map Prod.fst).reverse =
        ((answeredRequests server.carried).map Prod.fst).reverse ++ answered ∧
      BlockingQueue.enqueuedItems after.ioQueue.events =
        submitted.reverse ++ BlockingQueue.enqueuedItems server.ioQueue.events ∧
      answered ++ after.phase.inHand ++ after.ioQueue.q =
        server.phase.inHand ++ server.ioQueue.q ++ submitted ∧
      answered.length + after.phase.unread ≤ server.phase.unread := by
  have last : ∃ answered submitted, Stopped server after answered submitted := by
    induction run with
    | refl => exact ⟨[], [], stopped, by simp, rfl, by simp, by simp⟩
    | tail _ step ih =>
        obtain ⟨_, _, before⟩ := ih
        exact before.step step
  obtain ⟨answered, submitted, last⟩ := last
  exact ⟨answered, submitted, last.answeredSince, last.submittedSince, last.kept, last.bound⟩

/-- A stopped thread leaves the second of two requests in the queue. -/
theorem stopped_answers_unread_etl : ∃ server after : RequestServer Unit,
    Relation.ReflTransGen Step server after ∧ after.phase = .ended ∧
    after.ioQueue.q = [dagRequest .remove (ascii "etl") none] ∧
    ∃ answered submitted, answered ++ after.phase.inHand ++ after.ioQueue.q =
        server.phase.inHand ++ server.ioQueue.q ++ submitted ∧
      answered.length + after.phase.unread ≤ 1 := by
  have run : ∃ server after : RequestServer Unit, server.terminator = false ∧
      Relation.ReflTransGen Step server after ∧ after.phase = .ended ∧
      after.ioQueue.q = [dagRequest .remove (ascii "etl") none] ∧ server.phase.unread = 1 := by
    refine ⟨{ initial none 0 with
      terminator := false
      phase := .holding (dagRequest .create (ascii "etl") none) }, _, rfl, .tail (.tail (.tail
      (.tail .refl
      (.submit (dagRequest .remove (ascii "etl") none) (.enqueue _)))
      (.process detachedEnvironment rfl rfl))
      (.notify rfl))
      (.loadFalse rfl rfl), rfl, rfl, rfl⟩
  obtain ⟨server, after, stopped, run, ended, left, one⟩ := run
  obtain ⟨answered, submitted, _, _, kept, bound⟩ := stopped_answers_unread stopped run
  exact ⟨server, after, run, ended, left, answered, submitted, kept, one ▸ bound⟩

end RequestServer

end BabyLuigi
