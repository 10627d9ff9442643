import BabyLuigi.CycleSearchProperties

/-! What the sort returns: nothing iff there is a cycle, otherwise every key once,
with each task ahead of its dependencies. -/

set_option autoImplicit false

namespace BabyLuigi.DirectedAcyclicGraph

variable {Name : Type} [DecidableEq Name] {graph : DirectedAcyclicGraph Name}

/-- A sort under way: the order holds the visited nodes, each once and after
everything it depends on. -/
structure Sorting (graph : DirectedAcyclicGraph Name) (sorting : SortState Name) : Prop where
  running : sorting.hasCycle = false
  nodup : sorting.order.Nodup
  visited : ∀ node, node ∈ sorting.order ↔ sorting.state node = .visited
  settled : ∀ node, sorting.state node = .visited → graph.table.Settled node
  sorted : graph.table.AfterDependencies sorting.order

/-- What a part of a sort that finds no cycle leads to. -/
structure Sorts (graph : DirectedAcyclicGraph Name) (before after : SortState Name) : Prop where
  sorting : graph.Sorting after
  keeps : ∀ node, before.state node = .visited → after.state node = .visited
  visiting : ∀ node, after.state node = .visiting ↔ before.state node = .visiting

theorem Sorts.refl {sorting : SortState Name} (holds : graph.Sorting sorting) :
    graph.Sorts sorting sorting where
  sorting := holds
  keeps _ visited := visited
  visiting _ := .rfl

theorem Sorts.trans {first second third : SortState Name} (left : graph.Sorts first second)
    (right : graph.Sorts second third) : graph.Sorts first third where
  sorting := right.sorting
  keeps node visited := right.keeps node (left.keeps node visited)
  visiting node := (right.visiting node).trans (left.visiting node)

/-- The state in which the dependencies of a fresh node are visited. -/
def SortState.enter (sorting : SortState Name) (node : Name) : SortState Name :=
  { sorting with state := Function.update sorting.state node .visiting }

/-- The state in which a node's visit ends. -/
def SortState.leave (sorting : SortState Name) (node : Name) : SortState Name :=
  { sorting with
    state := Function.update sorting.state node .visited
    order := sorting.order ++ [node] }

theorem dfs_succ (fuel : Nat) {sorting : SortState Name} {node : Name}
    {dependencies : List Name} (fresh : sorting.state node = .notVisited)
    (entry : graph.table node = some dependencies) :
    graph.dfs (fuel + 1) sorting node =
      match dfsDependencies (graph.dfs fuel) dependencies (sorting.enter node) with
      | .error fault => .error fault
      | .ok (true, sorting) => .ok sorting
      | .ok (false, sorting) => .ok (sorting.leave node) := by
  simp only [dfs, fresh, dependenciesOf_of_table entry]
  rfl

theorem Sorting.enter {sorting : SortState Name} (holds : graph.Sorting sorting) {node : Name}
    (fresh : sorting.state node = .notVisited) : graph.Sorting (sorting.enter node) := by
  have visited : ∀ other, (sorting.enter node).state other = .visited ↔
      sorting.state other = .visited := by
    intro other
    by_cases same : other = node
    · subst other
      simp [SortState.enter, fresh]
    · simp only [SortState.enter, Function.update_of_ne same]
  exact ⟨holds.running, holds.nodup, fun other => (holds.visited other).trans (visited other).symm,
    fun other isVisited => holds.settled other ((visited other).mp isVisited), holds.sorted⟩

/-- A fresh node is left once its dependencies are visited. -/
theorem Sorts.around {before middle : SortState Name} {node : Name} {dependencies : List Name}
    (sorts : graph.Sorts (before.enter node) middle) (fresh : before.state node = .notVisited)
    (entry : graph.table node = some dependencies)
    (ready : ∀ dependency ∈ dependencies, middle.state dependency = .visited) :
    graph.Sorts before (middle.leave node) := by
  have visiting : middle.state node = .visiting :=
    (sorts.visiting node).mpr (Function.update_self ..)
  have left : ∀ other, other ≠ node → (middle.leave node).state other = middle.state other :=
    fun other different => Function.update_of_ne different _ _
  have here : (middle.leave node).state node = .visited := Function.update_self ..
  have entered : ∀ other, other ≠ node → (before.enter node).state other = before.state other :=
    fun other different => Function.update_of_ne different _ _
  refine ⟨⟨sorts.sorting.running, ?_, ?_, ?_, ?_⟩, ?_, ?_⟩
  · refine List.nodup_append.mpr ⟨sorts.sorting.nodup, List.nodup_singleton _, ?_⟩
    intro other listed last isLast same
    obtain rfl := List.mem_singleton.mp isLast
    subst same
    cases visiting.symm.trans ((sorts.sorting.visited _).mp listed)
  · intro other
    by_cases same : other = node
    · subst other
      simp [SortState.leave]
    · rw [left other same, ← sorts.sorting.visited]
      simp [SortState.leave, same]
  · intro other isVisited
    by_cases same : other = node
    · subst other
      exact .intro entry fun dependency listed =>
        sorts.sorting.settled dependency (ready dependency listed)
    · exact sorts.sorting.settled other ((left other same).symm.trans isVisited)
  · apply sorts.sorting.sorted.concat
    rintro dependency ⟨listed, listedEntry, member⟩
    obtain rfl := Option.some.inj (entry.symm.trans listedEntry)
    exact (sorts.sorting.visited dependency).mpr (ready dependency member)
  · intro other isVisited
    by_cases same : other = node
    · exact same ▸ here
    · rw [left other same]
      exact sorts.keeps other ((entered other same).trans isVisited)
  · intro other
    by_cases same : other = node
    · subst other
      rw [here, fresh]
      simp
    · rw [left other same, sorts.visiting, entered other same]

theorem dfsDependencies_sorts {fuel : Nat}
    (sorts : ∀ before node after, graph.Sorting before → graph.dfs fuel before node = .ok after →
      after.hasCycle = false → graph.Sorts before after ∧ after.state node = .visited)
    {dependencies : List Name} {before after : SortState Name} {early : Bool}
    (holds : graph.Sorting before)
    (result : dfsDependencies (graph.dfs fuel) dependencies before = .ok (early, after))
    (running : after.hasCycle = false) :
    early = false ∧ graph.Sorts before after ∧
      ∀ dependency ∈ dependencies, after.state dependency = .visited := by
  induction dependencies generalizing before with
  | nil =>
      cases result
      exact ⟨rfl, .refl holds, by simp⟩
  | cons dependency rest ih =>
      simp only [dfsDependencies] at result
      cases visited : graph.dfs fuel before dependency with
      | error fault => simp [visited] at result
      | ok middle =>
          simp only [visited] at result
          split at result
          · rename_i flagged
            cases result
            cases running.symm.trans flagged
          · rename_i notFlagged
            obtain ⟨first, here⟩ := sorts before dependency middle holds visited
              (by simpa using notFlagged)
            obtain ⟨notEarly, second, ready⟩ := ih first.sorting result
            exact ⟨notEarly, first.trans second,
              List.forall_mem_cons.mpr ⟨second.keeps dependency here, ready⟩⟩

theorem dfs_sorts (fuel : Nat) (before : SortState Name) (node : Name) (after : SortState Name)
    (holds : graph.Sorting before) (result : graph.dfs fuel before node = .ok after)
    (running : after.hasCycle = false) :
    graph.Sorts before after ∧ after.state node = .visited := by
  induction fuel generalizing before node after with
  | zero => cases result
  | succ fuel ih =>
      cases state : before.state node with
      | visiting =>
          simp only [dfs, state] at result
          cases result
          cases running
      | visited =>
          simp only [dfs, state] at result
          cases result
          exact ⟨.refl holds, state⟩
      | notVisited =>
          cases entry : graph.table node with
          | none =>
              simp only [table] at entry
              simp [dfs, state, dependenciesOf, entry] at result
          | some dependencies =>
              rw [dfs_succ fuel state entry] at result
              split at result
              · cases result
              · rename_i visited
                cases result
                have loop := dfsDependencies_sorts ih (holds.enter state) visited running
                cases loop.1
              · rename_i visited
                cases result
                obtain ⟨_, sorts, ready⟩ :=
                  dfsDependencies_sorts ih (holds.enter state) visited running
                exact ⟨sorts.around state entry ready, Function.update_self ..⟩

/-! ### Cycles -/

omit [DecidableEq Name] in
/-- The loop returns early exactly when a cycle is flagged. -/
theorem dfsDependencies_early {visit : SortState Name → Name → Except Fault (SortState Name)}
    {dependencies : List Name} {before after : SortState Name} {early : Bool}
    (running : before.hasCycle = false)
    (result : dfsDependencies visit dependencies before = .ok (early, after)) :
    after.hasCycle = early := by
  induction dependencies generalizing before with
  | nil =>
      cases result
      exact running
  | cons dependency rest ih =>
      simp only [dfsDependencies] at result
      cases visited : visit before dependency with
      | error fault => simp [visited] at result
      | ok middle =>
          simp only [visited] at result
          split at result
          · rename_i flagged
            cases result
            exact flagged
          · rename_i notFlagged
            exact ih (by simpa using notFlagged) result

theorem dfsDependencies_stops {fuel : Nat} {dependencies : List Name}
    {before after : SortState Name} {early : Bool} (holds : graph.Sorting before)
    (result : dfsDependencies (graph.dfs fuel) dependencies before = .ok (early, after))
    (flagged : after.hasCycle = true) :
    ∃ dependency ∈ dependencies, ∃ middle, graph.Sorts before middle ∧
      graph.dfs fuel middle dependency = .ok after := by
  induction dependencies generalizing before with
  | nil =>
      cases result
      cases holds.running.symm.trans flagged
  | cons dependency rest ih =>
      simp only [dfsDependencies] at result
      cases visited : graph.dfs fuel before dependency with
      | error fault => simp [visited] at result
      | ok middle =>
          simp only [visited] at result
          split at result
          · cases result
            exact ⟨dependency, List.mem_cons_self, before, .refl holds, visited⟩
          · rename_i notFlagged
            obtain ⟨first, _⟩ := dfs_sorts fuel before dependency middle holds visited
              (by simpa using notFlagged)
            obtain ⟨other, listed, later, second, stopped⟩ := ih first.sorting result
            exact ⟨other, List.mem_cons_of_mem _ listed, later, first.trans second, stopped⟩

/-- A sort that flags a cycle has found one: the nodes being visited are those
above the node. -/
theorem dfs_cycle (fuel : Nat) (before : SortState Name) (node : Name) (after : SortState Name)
    (holds : graph.Sorting before)
    (above : ∀ other, before.state other = .visiting →
      Relation.TransGen graph.table.Depends other node)
    (result : graph.dfs fuel before node = .ok after) (flagged : after.hasCycle = true) :
    ∃ looped, Relation.TransGen graph.table.Depends looped looped := by
  induction fuel generalizing before node with
  | zero => cases result
  | succ fuel ih =>
      cases state : before.state node with
      | visiting => exact ⟨node, above node state⟩
      | visited =>
          simp only [dfs, state] at result
          cases result
          cases holds.running.symm.trans flagged
      | notVisited =>
          cases entry : graph.table node with
          | none =>
              simp only [table] at entry
              simp [dfs, state, dependenciesOf, entry] at result
          | some dependencies =>
              rw [dfs_succ fuel state entry] at result
              have stopped : ∃ dependency ∈ dependencies, ∃ middle,
                  graph.Sorts (before.enter node) middle ∧
                  graph.dfs fuel middle dependency = .ok after := by
                split at result
                · cases result
                · rename_i visited
                  cases result
                  exact dfsDependencies_stops (holds.enter state) visited flagged
                · rename_i visited
                  cases result
                  have running := dfsDependencies_early (holds.enter state).running visited
                  cases running.symm.trans flagged
              obtain ⟨dependency, listed, middle, sorts, flaggedBelow⟩ := stopped
              have edge : graph.table.Depends node dependency := ⟨dependencies, entry, listed⟩
              refine ih middle dependency sorts.sorting ?_ flaggedBelow
              intro other visiting
              have entered := (sorts.visiting other).mp visiting
              by_cases same : other = node
              · exact same ▸ .single edge
              · simp only [SortState.enter, Function.update_of_ne same] at entered
                exact (above other entered).tail edge

/-! ### The sort of all keys -/

theorem dfsKeys_sorts {fuel : Nat} {keys : List Name} {before : SortState Name}
    (holds : graph.Sorting before) (noVisiting : ∀ node, before.state node ≠ .visiting)
    {sorted : List Name} (result : dfsKeys (graph.dfs fuel) keys before = .ok (some sorted)) :
    ∃ after, sorted = after.order.reverse ∧ graph.Sorts before after ∧
      ∀ key ∈ keys, after.state key = .visited := by
  induction keys generalizing before with
  | nil =>
      cases result
      exact ⟨before, rfl, .refl holds, by simp⟩
  | cons key rest ih =>
      simp only [dfsKeys] at result
      cases state : before.state key with
      | visiting => exact absurd state (noVisiting key)
      | visited =>
          simp only [state] at result
          obtain ⟨after, same, sorts, done⟩ := ih holds noVisiting result
          exact ⟨after, same, sorts, List.forall_mem_cons.mpr ⟨sorts.keeps key state, done⟩⟩
      | notVisited =>
          simp only [state] at result
          cases visited : graph.dfs fuel before key with
          | error fault => simp [visited] at result
          | ok middle =>
              simp only [visited] at result
              split at result
              · cases result
              · rename_i notFlagged
                obtain ⟨first, here⟩ := dfs_sorts fuel before key middle holds visited
                  (by simpa using notFlagged)
                obtain ⟨after, same, second, done⟩ := ih first.sorting
                  (fun node visiting => noVisiting node ((first.visiting node).mp visiting)) result
                exact ⟨after, same, first.trans second,
                  List.forall_mem_cons.mpr ⟨second.keeps key here, done⟩⟩

theorem dfsKeys_cycle {fuel : Nat} {keys : List Name} {before : SortState Name}
    (holds : graph.Sorting before) (noVisiting : ∀ node, before.state node ≠ .visiting)
    (result : dfsKeys (graph.dfs fuel) keys before = .ok none) :
    ∃ looped, Relation.TransGen graph.table.Depends looped looped := by
  induction keys generalizing before with
  | nil => cases result
  | cons key rest ih =>
      simp only [dfsKeys] at result
      cases state : before.state key with
      | visiting => exact absurd state (noVisiting key)
      | visited =>
          simp only [state] at result
          exact ih holds noVisiting result
      | notVisited =>
          simp only [state] at result
          cases visited : graph.dfs fuel before key with
          | error fault => simp [visited] at result
          | ok middle =>
              simp only [visited] at result
              split at result
              · rename_i flagged
                exact dfs_cycle fuel before key middle holds
                  (fun other visiting => absurd visiting (noVisiting other)) visited flagged
              · rename_i notFlagged
                obtain ⟨first, _⟩ := dfs_sorts fuel before key middle holds visited
                  (by simpa using notFlagged)
                exact ih first.sorting
                  (fun node visiting => noVisiting node ((first.visiting node).mp visiting)) result

theorem sorting_initial (graph : DirectedAcyclicGraph Name) :
    graph.Sorting { state := fun _ => .notVisited, hasCycle := false, order := [] } where
  running := rfl
  nodup := List.nodup_nil
  visited := by simp
  settled := by simp
  sorted := DependencyTable.afterDependencies_nil

/-- A list returned holds every key once, each ahead of what it depends on. -/
theorem topologicalSort_some {order sorted : List Name}
    (perm : order.Perm graph.adjacencyList.keys)
    (result : graph.topologicalSort order = .ok (some sorted)) :
    sorted.Perm graph.adjacencyList.keys ∧ graph.table.BeforeDependencies sorted ∧
      graph.table.Acyclic := by
  obtain ⟨after, rfl, sorts, done⟩ := dfsKeys_sorts graph.sorting_initial (by simp) result
  have listed : ∀ key, key ∈ after.order.reverse ↔ key ∈ graph.adjacencyList.keys := by
    intro key
    rw [List.mem_reverse, sorts.sorting.visited]
    constructor
    · intro visited
      exact mem_keys_iff_table.mpr (sorts.sorting.settled key visited).exists_entry
    · intro member
      exact done key (perm.mem_iff.mpr member)
  refine ⟨?_, sorts.sorting.sorted.reverse, ?_⟩
  · exact (List.perm_ext_iff_of_nodup (List.nodup_reverse.mpr sorts.sorting.nodup)
      graph.adjacencyList.nodupKeys).mpr listed
  · apply DependencyTable.acyclic_of_settled
    intro node dependencies entry
    exact sorts.sorting.settled node
      (done node (perm.mem_iff.mpr (mem_keys_iff_table.mpr ⟨dependencies, entry⟩)))

/-- Nothing is returned only where there is a cycle. -/
theorem topologicalSort_none {order : List Name}
    (result : graph.topologicalSort order = .ok none) : ¬ graph.table.Acyclic := by
  obtain ⟨looped, cycle⟩ := dfsKeys_cycle graph.sorting_initial (by simp) result
  exact fun acyclic => acyclic looped cycle

theorem topologicalSort_exact {order : List Name} (closed : graph.table.Closed)
    (perm : order.Perm graph.adjacencyList.keys) :
    ∃ sorted, graph.topologicalSort order = .ok sorted ∧
      (sorted = none ↔ ¬ graph.table.Acyclic) := by
  obtain ⟨sorted, result⟩ := topologicalSort_total closed fun _ => perm.mem_iff.mp
  refine ⟨sorted, result, ?_, ?_⟩
  · rintro rfl
    exact topologicalSort_none result
  · intro cyclic
    cases sorted with
    | none => rfl
    | some sorted => exact absurd (topologicalSort_some perm result).2.2 cyclic

theorem hasCycle_exact {order : List Name} (closed : graph.table.Closed)
    (perm : order.Perm graph.adjacencyList.keys) :
    ∃ found, graph.hasCycle order = .ok found ∧ (found = true ↔ ¬ graph.table.Acyclic) :=
  hasCycle_of_not_meetsMissing (fun _ => perm.mem_iff.mpr)
    (closed.not_meetsMissing fun _ member => mem_keys_iff_table.mp (perm.mem_iff.mp member))

/-- On a closed graph both searches end, and each tells whether there is a
cycle, in whatever order it takes the keys. -/
theorem detectors_agree (closed : graph.table.Closed) {order : List Name}
    (perm : order.Perm graph.adjacencyList.keys) :
    ∃ found sorted, graph.hasCycle order = .ok found ∧
      graph.topologicalSort order = .ok sorted ∧
      (found = true ↔ ∃ node, Relation.TransGen graph.table.Depends node node) ∧
      (sorted = none ↔ ∃ node, Relation.TransGen graph.table.Depends node node) ∧
      ∀ list, sorted = some list →
        list.Nodup ∧ ∀ name, name ∈ list ↔ name ∈ graph.adjacencyList.keys := by
  have cyclic : ¬ graph.table.Acyclic ↔ ∃ node, Relation.TransGen graph.table.Depends node node := by
    simp [DependencyTable.Acyclic]
  obtain ⟨found, searched, foundExact⟩ := hasCycle_exact closed perm
  obtain ⟨sorted, ordered, sortedExact⟩ := topologicalSort_exact closed perm
  refine ⟨found, sorted, searched, ordered, foundExact.trans cyclic, sortedExact.trans cyclic, ?_⟩
  rintro list rfl
  have keysPerm := (topologicalSort_some perm ordered).1
  exact ⟨keysPerm.nodup_iff.mpr graph.adjacencyList.nodupKeys, fun _ => keysPerm.mem_iff⟩

theorem closed_of_entries
    (listed : ∀ entry ∈ graph.adjacencyList.entries, ∀ dependency ∈ entry.2,
      dependency ∈ graph.adjacencyList.keys) : graph.table.Closed := by
  intro node dependency edge
  obtain ⟨dependencies, entry, member⟩ := edge
  exact mem_keys_iff_table.mp (listed _ (AList.mem_lookup_iff.mp entry) dependency member)

/-- Two tasks that depend on each other. -/
def mutualTasks : DirectedAcyclicGraph Str :=
  ((ofName (ascii "etl")).withTask (ascii "load") (some [ascii "extract"])).withTask
    (ascii "extract") (some [ascii "load"])

theorem detectors_agree_mutual :
    mutualTasks.hasCycle mutualTasks.adjacencyList.keys = .ok true ∧
      mutualTasks.topologicalSort mutualTasks.adjacencyList.keys = .ok none := by
  have closed : mutualTasks.table.Closed := closed_of_entries (by decide)
  have cycle : ∃ node, Relation.TransGen mutualTasks.table.Depends node node :=
    ⟨ascii "load", .head ⟨[ascii "extract"], rfl, List.mem_singleton.mpr rfl⟩
      (.single ⟨[ascii "load"], rfl, List.mem_singleton.mpr rfl⟩)⟩
  obtain ⟨found, sorted, searched, ordered, foundExact, sortedExact, _⟩ :=
    detectors_agree closed (.refl _)
  rw [searched, ordered, foundExact.mpr cycle, sortedExact.mpr cycle]
  exact ⟨rfl, rfl⟩

/-! ### The run order -/

/-- In a graph that insertions and removals built, the run order has the tasks
after their dependencies only where there is no dependency. -/
theorem runOrder_afterDependencies_iff {root : Name}
    (run : Relation.ReflTransGen Step (ofName root) graph) (closed : graph.table.Closed)
    {order : List Name} (perm : order.Perm graph.adjacencyList.keys) :
    (∃ sorted, graph.runOrder order = .ok (some sorted) ∧
        sorted.Perm graph.adjacencyList.keys ∧ graph.table.AfterDependencies sorted) ↔
      ∀ node dependency, ¬ graph.table.Depends node dependency := by
  constructor
  · intro ordered node dependency edge
    obtain ⟨sorted, result, keysPerm, after⟩ := ordered
    obtain ⟨dependencies, entry, _⟩ := id edge
    have before := (topologicalSort_some perm result).2.1
    have nodup := keysPerm.nodup_iff.mpr graph.adjacencyList.nodupKeys
    have listed := keysPerm.mem_iff.mpr (mem_keys_iff_table.mpr ⟨dependencies, entry⟩)
    exact before.not_after nodup after listed edge
  · intro independent
    obtain ⟨sorted, result, exact⟩ := topologicalSort_exact closed perm
    cases sorted with
    | none => exact absurd (run_acyclic run) (exact.mp rfl)
    | some sorted =>
        exact ⟨sorted, result, (topologicalSort_some perm result).1,
          fun _ node _ _ dependency edge => absurd edge (independent node dependency)⟩

/-- Two tasks without dependencies. -/
theorem runOrder_afterDependencies_independent :
    ∃ graph, Relation.ReflTransGen Step (ofName (ascii "etl")) graph ∧
      graph.adjacencyList.keys = [ascii "load", ascii "extract", ascii "etl"] ∧
      ∃ sorted, graph.runOrder graph.adjacencyList.keys = .ok (some sorted) ∧
        sorted.Perm graph.adjacencyList.keys ∧ graph.table.AfterDependencies sorted := by
  have run : ∃ graph, Relation.ReflTransGen Step (ofName (ascii "etl")) graph ∧
      graph.adjacencyList.keys = [ascii "load", ascii "extract", ascii "etl"] ∧
      ∀ entry ∈ graph.adjacencyList.entries, entry.2 = [] := by
    exact ⟨_, .tail (.tail .refl ⟨.pushTask (.storage _ _) (ascii "extract") none, rfl⟩)
      ⟨.pushTask (.storage _ _) (ascii "load") none, rfl⟩, by decide, by decide⟩
  obtain ⟨graph, run, keys, empty⟩ := run
  have independent : ∀ node dependency, ¬ graph.table.Depends node dependency := by
    intro node dependency edge
    obtain ⟨dependencies, entry, member⟩ := edge
    obtain rfl : dependencies = [] := empty _ (AList.mem_lookup_iff.mp entry)
    cases member
  have closed : graph.table.Closed :=
    fun node dependency edge => absurd edge (independent node dependency)
  exact ⟨graph, run, keys, (runOrder_afterDependencies_iff run closed (.refl _)).mpr independent⟩

/-- A task that depends on another is ordered ahead of it. -/
theorem dependent_runs_first :
    ∃ graph, Relation.ReflTransGen Step (ofName (ascii "etl")) graph ∧
      graph.table.Closed ∧
      graph.runOrder graph.adjacencyList.keys =
        .ok (some [ascii "etl", ascii "load", ascii "extract"]) ∧
      ¬ ∃ sorted, graph.runOrder graph.adjacencyList.keys = .ok (some sorted) ∧
        graph.table.AfterDependencies sorted := by
  have run : ∃ graph, Relation.ReflTransGen Step (ofName (ascii "etl")) graph ∧
      graph.table (ascii "load") = some [ascii "extract"] ∧
      (∀ entry ∈ graph.adjacencyList.entries, ∀ dependency ∈ entry.2,
        dependency ∈ graph.adjacencyList.keys) ∧
      graph.runOrder graph.adjacencyList.keys =
        .ok (some [ascii "etl", ascii "load", ascii "extract"]) := by
    exact ⟨_, .tail (.tail .refl ⟨.pushTask (.storage _ _) (ascii "extract") none, rfl⟩)
      ⟨.pushTask (.storage _ _) (ascii "load") (some [ascii "extract"]), rfl⟩,
      by decide, by decide, rfl⟩
  obtain ⟨graph, run, entry, listed, ordered⟩ := run
  refine ⟨graph, run, closed_of_entries listed, ordered, ?_⟩
  rintro ⟨sorted, result, after⟩
  obtain rfl := Option.some.inj (Except.ok.inj (ordered.symm.trans result))
  have earlier := after [ascii "etl"] (ascii "load") [ascii "extract"] rfl (ascii "extract")
    ⟨[ascii "extract"], entry, List.mem_singleton.mpr rfl⟩
  exact absurd earlier (by decide)

end BabyLuigi.DirectedAcyclicGraph
