import BabyLuigi.GraphProperties
import BabyLuigi.Vocabulary

/-! Histories of insertions and removals on one task graph, and whether each
name listed as a dependency keeps an entry of its own. -/

set_option autoImplicit false

namespace BabyLuigi.DirectedAcyclicGraph

variable {Name : Type} [DecidableEq Name]

theorem table_ofName (root name : Name) :
    (ofName root).table name = if name = root then some [] else none := by
  simp only [table, ofName, UnorderedMap.emplace_of_notMem (AList.notMem_empty root)]
  split
  · subst name
    exact AList.lookup_insert _
  · exact AList.lookup_insert_ne ‹_›

theorem closed_ofName (root : Name) : (ofName root).table.Closed := by
  intro node dependency held
  obtain ⟨dependencies, entry, member⟩ := held
  rw [table_ofName] at entry
  split at entry
  · cases entry
    cases member
  · cases entry

def withTask (graph : DirectedAcyclicGraph Name) (taskName : Name)
    (dependencies : Option (List Name)) : DirectedAcyclicGraph Name :=
  { graph with adjacencyList := graph.adjacencyList.insert taskName (dependencies.getD []) }

/-- The cycle search of an insertion. -/
def searchWithTask (graph : DirectedAcyclicGraph Name) (traversal : Traversal Name)
    (taskName : Name) (dependencies : Option (List Name)) : Except Fault Bool :=
  (graph.withTask taskName dependencies).hasCycle
    (traversal.order (graph.withTask taskName dependencies).adjacencyList)

theorem pushTask_of_absent {graph : DirectedAcyclicGraph Name} {taskName : Name}
    (absent : ¬ graph.contains taskName = true) (traversal : Traversal Name)
    (dependencies : Option (List Name)) :
    graph.pushTask traversal taskName dependencies =
      match graph.searchWithTask traversal taskName dependencies with
      | .error fault => .error fault
      | .ok true =>
        .ok ({ graph with
            adjacencyList := (graph.withTask taskName dependencies).adjacencyList.erase taskName },
          .error .taskCreatesCycle)
      | .ok false => .ok (graph.withTask taskName dependencies, .ok ()) := by
  have notMember : taskName ∉ graph.adjacencyList := by
    rwa [contains_iff_mem_keys, ← AList.mem_keys] at absent
  rw [pushTask, if_neg absent, UnorderedMap.emplace_of_notMem notMember]
  rfl

/-- An insertion returns if the names listed ahead of the task itself have
entries. -/
theorem pushTask_total {graph : DirectedAcyclicGraph Name} {taskName : Name}
    {dependencies : Option (List Name)} (closed : ¬ graph.contains taskName = true →
      (graph.withTask taskName dependencies).table.ClosedToSelf) (traversal : Traversal Name) :
    ∃ after outcome, graph.pushTask traversal taskName dependencies = .ok (after, outcome) := by
  by_cases present : graph.contains taskName = true
  · exact ⟨graph, .error .containsDuplicates, by rw [pushTask, if_pos present]⟩
  · obtain ⟨found, searched⟩ :
        ∃ found, graph.searchWithTask traversal taskName dependencies = .ok found :=
      hasCycle_total_of_closedToSelf (closed present)
        fun _ member => UnorderedMap.Traversal.mem_order.mp member
    rw [pushTask_of_absent present, searched]
    cases found with
    | true => exact ⟨_, _, rfl⟩
    | false => exact ⟨_, _, rfl⟩

theorem pushTask_cases {graph after : DirectedAcyclicGraph Name} {traversal : Traversal Name}
    {taskName : Name} {dependencies : Option (List Name)} {outcome : Except GraphError Unit}
    (result : graph.pushTask traversal taskName dependencies = .ok (after, outcome)) :
    (graph.contains taskName = true ∧ after = graph ∧ outcome = .error .containsDuplicates) ∨
    (¬ graph.contains taskName = true ∧ after.table = graph.table ∧
      outcome = .error .taskCreatesCycle ∧ after.rootName = graph.rootName ∧
      graph.searchWithTask traversal taskName dependencies = .ok true) ∨
    (¬ graph.contains taskName = true ∧ outcome = .ok () ∧
      after = { graph with
        adjacencyList := graph.adjacencyList.insert taskName (dependencies.getD []) } ∧
      after.hasCycle (traversal.order after.adjacencyList) = .ok false) := by
  by_cases present : graph.contains taskName = true
  · rw [pushTask, if_pos present] at result
    obtain ⟨rfl, rfl⟩ := Prod.mk.inj (Except.ok.inj result)
    exact .inl ⟨present, rfl, rfl⟩
  · rw [pushTask_of_absent present] at result
    split at result
    · cases result
    · rename_i cyclic
      obtain ⟨rfl, rfl⟩ := Prod.mk.inj (Except.ok.inj result)
      refine .inr (.inl ⟨present, ?_, rfl, rfl, cyclic⟩)
      funext name
      by_cases same : name = taskName
      · subst name
        have absent : taskName ∉ graph.adjacencyList := by
          rwa [contains_iff_mem_keys, ← AList.mem_keys] at present
        exact (AList.lookup_erase _ _).trans (AList.lookup_eq_none.mpr absent).symm
      · exact (AList.lookup_erase_ne same).trans (AList.lookup_insert_ne same)
    · rename_i acyclic
      obtain ⟨rfl, rfl⟩ := Prod.mk.inj (Except.ok.inj result)
      exact .inr (.inr ⟨present, rfl, rfl, acyclic⟩)

/-- An insertion is turned down for a name the graph holds, or for a cycle that
the search finds. -/
def Rejects (graph : DirectedAcyclicGraph Name) (traversal : Traversal Name) (taskName : Name)
    (dependencies : Option (List Name)) : Prop :=
  graph.contains taskName = true ∨ graph.searchWithTask traversal taskName dependencies = .ok true

theorem rejects_iff_pushTask {graph : DirectedAcyclicGraph Name} {traversal : Traversal Name}
    {taskName : Name} {dependencies : Option (List Name)} :
    graph.Rejects traversal taskName dependencies ↔
      ∃ after error, graph.pushTask traversal taskName dependencies = .ok (after, .error error) := by
  constructor
  · intro rejects
    by_cases present : graph.contains taskName = true
    · exact ⟨graph, .containsDuplicates, by rw [pushTask, if_pos present]⟩
    · have cyclic := rejects.resolve_left present
      exact ⟨_, _, by rw [pushTask_of_absent present, cyclic]⟩
  · intro returned
    obtain ⟨after, error, result⟩ := returned
    rcases pushTask_cases result with ⟨present, _⟩ | ⟨_, _, _, _, cyclic⟩ | ⟨_, impossible, _⟩
    · exact .inl present
    · exact .inr cyclic
    · cases impossible

theorem table_settled_of_hasCycle_eq_false {graph : DirectedAcyclicGraph Name} {order : List Name}
    (complete : ∀ key, key ∈ graph.adjacencyList.keys → key ∈ order)
    (result : graph.hasCycle order = .ok false) (node : Name) (dependencies : List Name)
    (entry : graph.table node = some dependencies) : graph.table.Settled node :=
  settled_of_hasCycle_eq_false result node
    (complete node (mem_keys_iff_table.mpr ⟨dependencies, entry⟩))

theorem closed_of_hasCycle_eq_false {graph : DirectedAcyclicGraph Name} {order : List Name}
    (complete : ∀ key, key ∈ graph.adjacencyList.keys → key ∈ order)
    (result : graph.hasCycle order = .ok false) : graph.table.Closed :=
  DependencyTable.closed_of_settled (table_settled_of_hasCycle_eq_false complete result)

/-- An insertion that returns keeps the graph closed: a dangling name makes the
cycle search throw before the insertion can succeed. -/
theorem pushTask_closed {graph after : DirectedAcyclicGraph Name} {traversal : Traversal Name}
    {taskName : Name} {dependencies : Option (List Name)} {outcome : Except GraphError Unit}
    (closed : graph.table.Closed)
    (result : graph.pushTask traversal taskName dependencies = .ok (after, outcome)) :
    after.table.Closed := by
  rcases pushTask_cases result with ⟨_, rfl, _⟩ | ⟨_, unchanged, _⟩ | ⟨_, _, _, acyclic⟩
  · exact closed
  · exact unchanged ▸ closed
  · exact closed_of_hasCycle_eq_false
      (fun _ member => UnorderedMap.Traversal.mem_order.mpr member) acyclic

theorem removeTask_table (graph : DirectedAcyclicGraph Name) (taskName name : Name) :
    (graph.removeTask taskName).1.table name =
      if graph.contains taskName = true then
        if name = taskName then none
        else (graph.table name).map fun dependencies => dependencies.erase taskName
      else graph.table name := by
  unfold removeTask
  split
  · split
    · subst name
      exact AList.lookup_erase _ _
    · exact (AList.lookup_erase_ne ‹_›).trans (UnorderedMap.lookup_mapValues _ _ _)
  · rfl

theorem contains_removeTask {graph : DirectedAcyclicGraph Name} {taskName name : Name}
    (contained : graph.contains name = true) (different : name ≠ taskName) :
    (graph.removeTask taskName).1.contains name = true := by
  obtain ⟨dependencies, entry⟩ := contains_iff_table.mp contained
  rw [contains_iff_table, removeTask_table, if_neg different, entry]
  split
  · exact ⟨_, rfl⟩
  · exact ⟨_, rfl⟩

/-- The other tasks mention the name at most once each, so erasing its first
occurrence erases it. -/
def MentionedOnce (graph : DirectedAcyclicGraph Name) (taskName : Name) : Prop :=
  ∀ node dependencies, node ≠ taskName → graph.table node = some dependencies →
    dependencies.count taskName ≤ 1

theorem removeTask_closed {graph : DirectedAcyclicGraph Name} (closed : graph.table.Closed)
    {taskName : Name} (once : graph.MentionedOnce taskName) :
    (graph.removeTask taskName).1.table.Closed := by
  intro node dependency held
  obtain ⟨dependencies, entry, member⟩ := held
  rw [removeTask_table] at entry ⊢
  by_cases present : graph.contains taskName = true
  · simp only [present, if_true] at entry ⊢
    by_cases different : node = taskName
    · simp [different] at entry
    · simp only [different, if_false] at entry
      obtain ⟨listed, listedEntry, rfl⟩ := Option.map_eq_some_iff.mp entry
      have listedMember : dependency ∈ listed := List.mem_of_mem_erase member
      have survives : dependency ≠ taskName := by
        intro same
        subst same
        have single := once node listed different listedEntry
        have remaining := List.count_pos_iff.mpr member
        rw [List.count_erase_self] at remaining
        omega
      obtain ⟨dependencyEntry, found⟩ := closed node dependency ⟨listed, listedEntry, listedMember⟩
      exact ⟨dependencyEntry.erase taskName, by simp [survives, found]⟩
  · simp only [present] at entry ⊢
    exact closed node dependency ⟨dependencies, entry, member⟩

/-- A removal leaves a closed graph closed only if no other task listed the
removed name twice. -/
theorem mentionedOnce_of_removeTask_closed {graph : DirectedAcyclicGraph Name} {taskName : Name}
    (present : graph.contains taskName = true)
    (closed : (graph.removeTask taskName).1.table.Closed) : graph.MentionedOnce taskName := by
  intro node dependencies different entry
  by_contra repeated
  have remaining : taskName ∈ dependencies.erase taskName := by
    rw [← List.count_pos_iff, List.count_erase_self]
    omega
  have edge : (graph.removeTask taskName).1.table.Depends node taskName :=
    ⟨dependencies.erase taskName, by simp [removeTask_table, present, different, entry], remaining⟩
  obtain ⟨_, found⟩ := closed node taskName edge
  simp [removeTask_table, present] at found

/-- One call of a client; an insertion traverses the keys in an order of its own. -/
inductive Call (Name : Type) where
  | pushTask (traversal : Traversal Name) (taskName : Name) (dependencies : Option (List Name))
  | removeTask (taskName : Name)

/-- The graph after a call that returns. -/
def Call.apply (graph : DirectedAcyclicGraph Name) :
    Call Name → Except Fault (DirectedAcyclicGraph Name)
  | .pushTask traversal taskName dependencies =>
    (graph.pushTask traversal taskName dependencies).map Prod.fst
  | .removeTask taskName => .ok (graph.removeTask taskName).1

theorem Call.apply_pushTask {graph after : DirectedAcyclicGraph Name} {traversal : Traversal Name}
    {taskName : Name} {dependencies : Option (List Name)}
    (applied : (Call.pushTask traversal taskName dependencies).apply graph = .ok after) :
    ∃ outcome, graph.pushTask traversal taskName dependencies = .ok (after, outcome) := by
  simp only [Call.apply] at applied
  cases result : graph.pushTask traversal taskName dependencies with
  | error fault => simp [result, Except.map] at applied
  | ok returned =>
      simp only [result, Except.map, Except.ok.injEq] at applied
      subst after
      exact ⟨returned.2, rfl⟩

def Step (graph after : DirectedAcyclicGraph Name) : Prop :=
  ∃ call : Call Name, call.apply graph = .ok after

/-- A step whose removals name tasks that no other task lists twice. -/
def StepMentionedOnce (graph after : DirectedAcyclicGraph Name) : Prop :=
  ∃ call : Call Name, call.apply graph = .ok after ∧
    ∀ taskName, call = .removeTask taskName → graph.contains taskName = true →
      graph.MentionedOnce taskName

theorem StepMentionedOnce.closed {graph after : DirectedAcyclicGraph Name}
    (step : StepMentionedOnce graph after) (closed : graph.table.Closed) :
    after.table.Closed := by
  obtain ⟨call, applied, once⟩ := step
  cases call with
  | pushTask traversal taskName dependencies =>
      obtain ⟨outcome, result⟩ := Call.apply_pushTask applied
      exact pushTask_closed closed result
  | removeTask taskName =>
      simp only [Call.apply, Except.ok.injEq] at applied
      subst after
      by_cases present : graph.contains taskName = true
      · exact removeTask_closed closed (once taskName rfl present)
      · simpa [removeTask, present] using closed

theorem run_closed {root : Name} {graph : DirectedAcyclicGraph Name}
    (run : Relation.ReflTransGen StepMentionedOnce (ofName root) graph) : graph.table.Closed := by
  induction run with
  | refl => exact closed_ofName root
  | tail _ step ih => exact step.closed ih

/-- In every history whose removals name tasks that no other task lists twice,
each listed dependency is a key, and no search looks up a missing one. -/
theorem run_dependencies_are_keys {root : Name} {graph : DirectedAcyclicGraph Name}
    (run : Relation.ReflTransGen StepMentionedOnce (ofName root) graph) :
    (∀ node dependencies, graph.table node = some dependencies →
      ∀ dependency ∈ dependencies, dependency ∈ graph.adjacencyList.keys) ∧
    ∀ order, order.Perm graph.adjacencyList.keys →
      (∃ found, graph.hasCycle order = .ok found) ∧
      (∃ sorted, graph.topologicalSort order = .ok sorted) ∧
      (∃ sorted, graph.runOrder order = .ok sorted) := by
  have closed := run_closed run
  constructor
  · intro node dependencies entry dependency member
    exact mem_keys_iff_table.mpr (closed node dependency ⟨dependencies, entry, member⟩)
  · intro order perm
    have members : ∀ key ∈ order, key ∈ graph.adjacencyList.keys := fun _ => perm.mem_iff.mp
    exact ⟨hasCycle_total closed members, topologicalSort_total closed members,
      topologicalSort_total closed members⟩

theorem mentionedOnce_of_entries {graph : DirectedAcyclicGraph Name} {taskName : Name}
    (once : ∀ entry ∈ graph.adjacencyList.entries, entry.2.count taskName ≤ 1) :
    graph.MentionedOnce taskName := fun _ _ _ entry =>
  once _ (AList.mem_lookup_iff.mp entry)

/-- A history that inserts two tasks and removes the one the other depends on. -/
theorem run_dependencies_are_keys_etl :
    ∃ graph, Relation.ReflTransGen StepMentionedOnce (ofName (ascii "etl")) graph ∧
      graph.adjacencyList.keys = [ascii "load", ascii "etl"] ∧
      ∀ order, order.Perm graph.adjacencyList.keys → ∃ sorted, graph.runOrder order = .ok sorted := by
  have run : ∃ graph, Relation.ReflTransGen StepMentionedOnce (ofName (ascii "etl")) graph ∧
      graph.adjacencyList.keys = [ascii "load", ascii "etl"] := by
    refine ⟨_, .tail (.tail (.tail .refl
      ⟨.pushTask (.storage _ _) (ascii "extract") none, rfl, by simp⟩)
      ⟨.pushTask (.storage _ _) (ascii "load") (some [ascii "extract"]), rfl, by simp⟩)
      ⟨.removeTask (ascii "extract"), rfl, ?_⟩, by decide⟩
    intro _ impossible _
    cases impossible
    exact mentionedOnce_of_entries (by decide)
  obtain ⟨graph, run, keys⟩ := run
  exact ⟨graph, run, keys, fun order perm => ((run_dependencies_are_keys run).2 order perm).2.2⟩

/-- A dependency listed twice survives the removal of its task; from then on
sorting throws, and so does the next insertion. -/
theorem repeated_dependency_dangles :
    ∃ graph, Relation.ReflTransGen Step (ofName (ascii "etl")) graph ∧
      graph.table (ascii "load") = some [ascii "extract"] ∧
      ascii "extract" ∉ graph.adjacencyList.keys ∧
      graph.topologicalSort graph.adjacencyList.keys = .error .outOfRange ∧
      graph.pushTask (.storage _ _) (ascii "report") none = .error .outOfRange := by
  refine ⟨_, .tail (.tail (.tail .refl
    ⟨.pushTask (.storage _ _) (ascii "extract") none, rfl⟩)
    ⟨.pushTask (.storage _ _) (ascii "load") (some [ascii "extract", ascii "extract"]), rfl⟩)
    ⟨.removeTask (ascii "extract"), rfl⟩, ?_, ?_, ?_, ?_⟩
  · decide
  · decide
  · rfl
  · rfl

/-! ### Cycles -/

theorem acyclic_ofName (root : Name) : (ofName root).table.Acyclic := by
  intro node cycle
  obtain ⟨dependency, edge, _⟩ := Relation.TransGen.head'_iff.mp cycle
  obtain ⟨dependencies, entry, member⟩ := edge
  rw [table_ofName] at entry
  split at entry
  · cases entry
    cases member
  · cases entry

/-- The search from every key runs before an insertion is accepted, so names
that were left dangling in other lists are followed too. -/
theorem pushTask_acyclic {graph after : DirectedAcyclicGraph Name} {traversal : Traversal Name}
    {taskName : Name} {dependencies : Option (List Name)} {outcome : Except GraphError Unit}
    (acyclic : graph.table.Acyclic)
    (result : graph.pushTask traversal taskName dependencies = .ok (after, outcome)) :
    after.table.Acyclic := by
  rcases pushTask_cases result with ⟨_, rfl, _⟩ | ⟨_, unchanged, _⟩ | ⟨_, _, _, searched⟩
  · exact acyclic
  · exact unchanged ▸ acyclic
  · apply DependencyTable.acyclic_of_settled
    exact table_settled_of_hasCycle_eq_false
      (fun _ member => UnorderedMap.Traversal.mem_order.mpr member) searched

theorem removeTask_depends {graph : DirectedAcyclicGraph Name} {taskName node dependency : Name}
    (edge : (graph.removeTask taskName).1.table.Depends node dependency) :
    graph.table.Depends node dependency := by
  obtain ⟨dependencies, entry, member⟩ := edge
  rw [removeTask_table] at entry
  split at entry
  · split at entry
    · cases entry
    · obtain ⟨listed, listedEntry, rfl⟩ := Option.map_eq_some_iff.mp entry
      exact ⟨listed, listedEntry, List.mem_of_mem_erase member⟩
  · exact ⟨dependencies, entry, member⟩

theorem Step.acyclic {graph after : DirectedAcyclicGraph Name} (step : Step graph after)
    (acyclic : graph.table.Acyclic) : after.table.Acyclic := by
  obtain ⟨call, applied⟩ := step
  cases call with
  | pushTask traversal taskName dependencies =>
      obtain ⟨outcome, result⟩ := Call.apply_pushTask applied
      exact pushTask_acyclic acyclic result
  | removeTask taskName =>
      obtain rfl := Except.ok.inj applied
      exact acyclic.mono fun _ _ => removeTask_depends

/-- No history of insertions and removals closes a cycle, also when a removed
task returns under a name that other lists kept. -/
theorem run_acyclic {root : Name} {graph : DirectedAcyclicGraph Name}
    (run : Relation.ReflTransGen Step (ofName root) graph) : graph.table.Acyclic := by
  induction run with
  | refl => exact acyclic_ofName root
  | tail _ step ih => exact step.acyclic ih

/-- A task whose name another list kept is added again, first with
dependencies that would close a cycle, then without. -/
theorem run_acyclic_readded :
    ∃ graph, Relation.ReflTransGen Step (ofName (ascii "etl")) graph ∧
      graph.table (ascii "load") = some [ascii "extract"] ∧
      graph.table (ascii "extract") = some [] ∧ graph.table.Acyclic := by
  have run : ∃ graph, Relation.ReflTransGen Step (ofName (ascii "etl")) graph ∧
      graph.table (ascii "load") = some [ascii "extract"] ∧
      graph.table (ascii "extract") = some [] := by
    refine ⟨_, .tail (.tail (.tail (.tail (.tail .refl
      ⟨.pushTask (.storage _ _) (ascii "extract") none, rfl⟩)
      ⟨.pushTask (.storage _ _) (ascii "load") (some [ascii "extract", ascii "extract"]), rfl⟩)
      ⟨.removeTask (ascii "extract"), rfl⟩)
      ⟨.pushTask (.storage _ _) (ascii "extract") (some [ascii "load"]), rfl⟩)
      ⟨.pushTask (.storage _ _) (ascii "extract") none, rfl⟩, by decide, by decide⟩
  obtain ⟨graph, run, load, extract⟩ := run
  exact ⟨graph, run, load, extract, run_acyclic run⟩
end BabyLuigi.DirectedAcyclicGraph
