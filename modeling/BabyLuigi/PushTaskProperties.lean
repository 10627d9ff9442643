import BabyLuigi.CycleSearchProperties

/-! What an insertion returns, and on which graphs it returns at all. -/

set_option autoImplicit false

namespace BabyLuigi.DirectedAcyclicGraph

variable {Name : Type} [DecidableEq Name] {graph : DirectedAcyclicGraph Name}

theorem withTask_table (graph : DirectedAcyclicGraph Name) (taskName : Name)
    (dependencies : Option (List Name)) :
    (graph.withTask taskName dependencies).table =
      Function.update graph.table taskName (some (dependencies.getD [])) := by
  funext name
  by_cases same : name = taskName
  · subst name
    rw [Function.update_self]
    exact AList.lookup_insert _
  · rw [Function.update_of_ne same]
    exact AList.lookup_insert_ne same

/-- Every listed dependency is a key, or the task itself. -/
def KnowsAll (graph : DirectedAcyclicGraph Name) (taskName : Name)
    (dependencies : Option (List Name)) : Prop :=
  ∀ dependency ∈ dependencies.getD [], graph.contains dependency = true ∨ dependency = taskName

def ClosesCycle (graph : DirectedAcyclicGraph Name) (taskName : Name)
    (dependencies : Option (List Name)) : Prop :=
  Relation.TransGen (graph.withTask taskName dependencies).table.Depends taskName taskName

/-- A path in the larger graph stays in the smaller one or passes the new task. -/
theorem withTask_path {taskName first last : Name} {dependencies : Option (List Name)}
    (path : Relation.TransGen (graph.withTask taskName dependencies).table.Depends first last) :
    Relation.TransGen graph.table.Depends first last ∨
      Relation.ReflTransGen (graph.withTask taskName dependencies).table.Depends first taskName ∧
      Relation.TransGen (graph.withTask taskName dependencies).table.Depends taskName last := by
  have old : ∀ node dependency, node ≠ taskName →
      (graph.withTask taskName dependencies).table.Depends node dependency →
      graph.table.Depends node dependency := by
    intro node dependency different edge
    obtain ⟨listed, entry, member⟩ := edge
    rw [withTask_table, Function.update_of_ne different] at entry
    exact ⟨listed, entry, member⟩
  induction path with
  | single edge =>
      by_cases same : first = taskName
      · subst first
        exact .inr ⟨.refl, .single edge⟩
      · exact .inl (.single (old _ _ same edge))
  | tail path edge ih =>
      rename_i middle last
      rcases ih with within | ⟨toTask, fromTask⟩
      · by_cases same : middle = taskName
        · subst middle
          exact .inr ⟨path.to_reflTransGen, .single edge⟩
        · exact .inl (within.tail (old _ _ same edge))
      · exact .inr ⟨toTask, fromTask.tail edge⟩

/-- A cycle that an insertion closes passes the new task. -/
theorem closesCycle_iff {taskName : Name} {dependencies : Option (List Name)}
    (acyclic : graph.table.Acyclic) :
    graph.ClosesCycle taskName dependencies ↔
      ¬ (graph.withTask taskName dependencies).table.Acyclic := by
  constructor
  · intro closes acyclicAfter
    exact acyclicAfter taskName closes
  · intro cyclic
    obtain ⟨node, cycle⟩ := not_forall_not.mp cyclic
    rcases withTask_path cycle with within | ⟨toTask, fromTask⟩
    · exact absurd within (acyclic node)
    · exact fromTask.trans_left toTask

/-- The outcome of an insertion by its input, and the entries it leaves. -/
structure Pushes (graph : DirectedAcyclicGraph Name) (taskName : Name)
    (dependencies : Option (List Name)) (after : DirectedAcyclicGraph Name)
    (outcome : Except GraphError Unit) : Prop where
  duplicate : graph.contains taskName = true → outcome = .error .containsDuplicates
  notFound : ¬ graph.contains taskName = true → ¬ graph.KnowsAll taskName dependencies →
    outcome = .error .dependenciesNotFound
  cyclic : ¬ graph.contains taskName = true → graph.KnowsAll taskName dependencies →
    graph.ClosesCycle taskName dependencies → outcome = .error .taskCreatesCycle
  inserted : ¬ graph.contains taskName = true → graph.KnowsAll taskName dependencies →
    ¬ graph.ClosesCycle taskName dependencies → outcome = .ok ()
  unchanged : ∀ error, outcome = .error error → after.table = graph.table
  added : outcome = .ok () →
    after.table = Function.update graph.table taskName (some (dependencies.getD []))

/-- The cycle search of an insertion is led to a name that is not a key. -/
def MeetsMissingWith (graph : DirectedAcyclicGraph Name) (traversal : Traversal Name)
    (taskName : Name) (dependencies : Option (List Name)) : Prop :=
  (graph.withTask taskName dependencies).table.MeetsMissing
    (traversal.order (graph.withTask taskName dependencies).adjacencyList)

theorem pushTask_of_meetsMissing {traversal : Traversal Name} {taskName : Name}
    {dependencies : Option (List Name)} (absent : ¬ graph.contains taskName = true)
    (meets : graph.MeetsMissingWith traversal taskName dependencies) :
    graph.pushTask traversal taskName dependencies = .error .outOfRange := by
  rw [pushTask_of_absent absent, searchWithTask, hasCycle_of_meetsMissing meets]

theorem searchWithTask_of_not_meetsMissing {traversal : Traversal Name} {taskName : Name}
    {dependencies : Option (List Name)}
    (notMet : ¬ graph.MeetsMissingWith traversal taskName dependencies) :
    ∃ found, graph.searchWithTask traversal taskName dependencies = .ok found ∧
      (found = true ↔ ¬ (graph.withTask taskName dependencies).table.Acyclic) :=
  hasCycle_of_not_meetsMissing (fun _ member => UnorderedMap.Traversal.mem_order.mpr member) notMet

theorem pushTask_never_notFound {after : DirectedAcyclicGraph Name} {traversal : Traversal Name}
    {taskName : Name} {dependencies : Option (List Name)} {outcome : Except GraphError Unit}
    (result : graph.pushTask traversal taskName dependencies = .ok (after, outcome)) :
    outcome ≠ .error .dependenciesNotFound := by
  rcases pushTask_cases result with ⟨_, _, rfl⟩ | ⟨_, _, rfl, _⟩ | ⟨_, rfl, _⟩ <;> simp

theorem pushes_of_not_meetsMissing {traversal : Traversal Name} {taskName : Name}
    {dependencies : Option (List Name)} (acyclic : graph.table.Acyclic)
    (absent : ¬ graph.contains taskName = true) (known : graph.KnowsAll taskName dependencies)
    (notMet : ¬ graph.MeetsMissingWith traversal taskName dependencies) :
    ∃ after outcome, graph.pushTask traversal taskName dependencies = .ok (after, outcome) ∧
      graph.Pushes taskName dependencies after outcome := by
  obtain ⟨found, searched, exact⟩ := searchWithTask_of_not_meetsMissing notMet
  have closes : found = true ↔ graph.ClosesCycle taskName dependencies :=
    exact.trans (closesCycle_iff acyclic).symm
  have pushed := pushTask_of_absent absent traversal dependencies
  rw [searched] at pushed
  cases found with
  | true =>
      refine ⟨_, _, pushed, fun present => absurd present absent, fun _ unknown => absurd known unknown,
        fun _ _ _ => rfl, fun _ _ noCycle => absurd (closes.mp rfl) noCycle, ?_, ?_⟩
      · intro _ _
        rcases pushTask_cases pushed with ⟨present, _⟩ | ⟨_, unchanged, _⟩ | ⟨_, impossible, _⟩
        · exact absurd present absent
        · exact unchanged
        · cases impossible
      · intro impossible
        cases impossible
  | false =>
      refine ⟨_, _, pushed, fun present => absurd present absent, fun _ unknown => absurd known unknown,
        ?_, fun _ _ _ => rfl, ?_, fun _ => withTask_table graph taskName dependencies⟩
      · intro _ _ cycle
        cases closes.mpr cycle
      · intro error impossible
        cases impossible

/-- Where every dependency is a key, an insertion of known dependencies meets
no missing name, in whatever order the keys come. -/
theorem not_meetsMissingWith_of_closed {taskName : Name} {dependencies : Option (List Name)}
    (closed : graph.table.Closed) (known : graph.KnowsAll taskName dependencies)
    (traversal : Traversal Name) : ¬ graph.MeetsMissingWith traversal taskName dependencies := by
  have keeps : ∀ name, (∃ entry, graph.table name = some entry) ∨ name = taskName →
      ∃ entry, (graph.withTask taskName dependencies).table name = some entry := by
    intro name either
    rw [withTask_table]
    by_cases same : name = taskName
    · subst name
      exact ⟨_, Function.update_self ..⟩
    · rw [Function.update_of_ne same]
      exact either.resolve_right same
  have closedAfter : (graph.withTask taskName dependencies).table.Closed := by
    intro node dependency edge
    obtain ⟨listed, entry, member⟩ := edge
    apply keeps
    rw [withTask_table] at entry
    by_cases same : node = taskName
    · subst node
      rw [Function.update_self] at entry
      obtain rfl := Option.some.inj entry
      exact (known dependency member).imp_left contains_iff_table.mp
    · rw [Function.update_of_ne same] at entry
      exact .inl (closed node dependency ⟨listed, entry, member⟩)
  exact closedAfter.not_meetsMissing
    fun _ member => mem_keys_iff_table.mp (UnorderedMap.Traversal.mem_order.mp member)

/-- In every history, an insertion returns what its input calls for exactly
when the name is taken, or every listed dependency is known and the cycle
search is not led to a name that is not a key. -/
theorem pushTask_pushes_iff {root : Name} (run : Relation.ReflTransGen Step (ofName root) graph)
    (traversal : Traversal Name) (taskName : Name) (dependencies : Option (List Name)) :
    (∃ after outcome, graph.pushTask traversal taskName dependencies = .ok (after, outcome) ∧
        graph.Pushes taskName dependencies after outcome) ↔
      graph.contains taskName = true ∨
        graph.KnowsAll taskName dependencies ∧
          ¬ graph.MeetsMissingWith traversal taskName dependencies := by
  by_cases present : graph.contains taskName = true
  · refine iff_of_true ⟨graph, .error .containsDuplicates, by rw [pushTask, if_pos present], ?_⟩
      (.inl present)
    refine ⟨fun _ => rfl, fun absent => absurd present absent, fun absent => absurd present absent,
      fun absent => absurd present absent, fun _ _ => rfl, ?_⟩
    intro impossible
    cases impossible
  · constructor
    · intro returned
      obtain ⟨after, outcome, result, pushes⟩ := returned
      refine .inr ⟨?_, ?_⟩
      · by_contra unknown
        exact pushTask_never_notFound result (pushes.notFound present unknown)
      · intro meets
        cases (pushTask_of_meetsMissing present meets).symm.trans result
    · rintro (taken | ⟨known, notMet⟩)
      · exact absurd taken present
      · exact pushes_of_not_meetsMissing (run_acyclic run) present known notMet

/-- A task inserted after the one it depends on. -/
theorem pushTask_pushes_etl :
    ∃ graph, Relation.ReflTransGen Step (ofName (ascii "etl")) graph ∧
      graph.adjacencyList.keys = [ascii "extract", ascii "etl"] ∧
      ∃ after outcome,
        graph.pushTask (.storage _ _) (ascii "load") (some [ascii "extract"]) =
          .ok (after, outcome) ∧
        graph.Pushes (ascii "load") (some [ascii "extract"]) after outcome := by
  have run : ∃ graph, Relation.ReflTransGen StepMentionedOnce (ofName (ascii "etl")) graph ∧
      Relation.ReflTransGen Step (ofName (ascii "etl")) graph ∧
      graph.adjacencyList.keys = [ascii "extract", ascii "etl"] ∧
      graph.contains (ascii "extract") = true := by
    exact ⟨_, .tail .refl ⟨.pushTask (.storage _ _) (ascii "extract") none, rfl, by simp⟩,
      .tail .refl ⟨.pushTask (.storage _ _) (ascii "extract") none, rfl⟩, by decide, by decide⟩
  obtain ⟨graph, mentionedOnce, run, keys, present⟩ := run
  have known : graph.KnowsAll (ascii "load") (some [ascii "extract"]) := by
    intro dependency member
    obtain rfl := List.mem_singleton.mp member
    exact .inl present
  refine ⟨graph, run, keys, (pushTask_pushes_iff run _ _ _).mpr (.inr ⟨known, ?_⟩)⟩
  exact not_meetsMissingWith_of_closed (run_closed mentionedOnce) known _

/-- A dependency that is no key yet ends the process. -/
theorem unknown_dependency_throws :
    (ofName (ascii "etl")).pushTask (.storage _ _) (ascii "load") (some [ascii "extract"]) =
        .error .outOfRange ∧
      ¬ (ofName (ascii "etl")).KnowsAll (ascii "load") (some [ascii "extract"]) ∧
      ¬ ∃ after outcome,
        (ofName (ascii "etl")).pushTask (.storage _ _) (ascii "load") (some [ascii "extract"]) =
          .ok (after, outcome) ∧
        (ofName (ascii "etl")).Pushes (ascii "load") (some [ascii "extract"]) after outcome := by
  have thrown : (ofName (ascii "etl")).pushTask (.storage _ _) (ascii "load")
      (some [ascii "extract"]) = .error .outOfRange := rfl
  refine ⟨thrown, ?_, ?_⟩
  · intro known
    exact absurd (known (ascii "extract") (List.mem_singleton.mpr rfl)) (by decide)
  · rintro ⟨after, outcome, result, _⟩
    cases thrown.symm.trans result

end BabyLuigi.DirectedAcyclicGraph
