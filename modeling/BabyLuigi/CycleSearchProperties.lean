import BabyLuigi.GraphHistoryProperties

/-! What the cycle search decides: it finds a cycle iff there is one, unless its
descent meets a name without an entry first. -/

set_option autoImplicit false

namespace BabyLuigi.DirectedAcyclicGraph

variable {Name : Type} [DecidableEq Name] {graph : DirectedAcyclicGraph Name}

/-- The node depends, by some way, on a node that depends on itself. -/
def ReachesCycle (graph : DirectedAcyclicGraph Name) (node : Name) : Prop :=
  ∃ looped, Relation.ReflTransGen graph.table.Depends node looped ∧
    Relation.TransGen graph.table.Depends looped looped

theorem ReachesCycle.not_settled {node : Name} (reaches : graph.ReachesCycle node) :
    ¬ graph.table.Settled node := by
  obtain ⟨looped, path, cycle⟩ := reaches
  exact fun settled => (settled.of_path path).not_cycle cycle

theorem ReachesCycle.of_path {node dependency : Name}
    (path : Relation.ReflTransGen graph.table.Depends node dependency)
    (reaches : graph.ReachesCycle dependency) : graph.ReachesCycle node := by
  obtain ⟨looped, rest, cycle⟩ := reaches
  exact ⟨looped, path.trans rest, cycle⟩

/-! ### Where a search stops -/

omit [DecidableEq Name] in
theorem searchNeighbors_whites {search : ColorMap Name → Name → Except Fault (Bool × ColorMap Name)}
    (whites : ∀ before node found after, search before node = .ok (found, after) →
      ∀ other, after other = .white → before other = .white)
    {neighbors : List Name} {before after : ColorMap Name} {found : Bool}
    (result : searchNeighbors search neighbors before = .ok (found, after)) :
    ∀ other, after other = .white → before other = .white := by
  induction neighbors generalizing before with
  | nil =>
      cases result
      exact fun _ white => white
  | cons neighbor rest ih =>
      simp only [searchNeighbors] at result
      split at result
      · cases result
        exact fun _ white => white
      · exact ih result
      · split at result
        · cases result
        · rename_i searched
          cases result
          exact whites before neighbor true after searched
        · rename_i middle searched
          exact fun other white =>
            whites before neighbor false middle searched other (ih result other white)

/-- A search leaves no node white that was not. -/
theorem depthFirstSearch_whites (fuel : Nat) (before : ColorMap Name) (node : Name) (found : Bool)
    (after : ColorMap Name) (result : graph.depthFirstSearch fuel before node = .ok (found, after)) :
    ∀ other, after other = .white → before other = .white := by
  induction fuel generalizing before node found after with
  | zero => cases result
  | succ fuel ih =>
      simp only [depthFirstSearch] at result
      have entered : ∀ other, Function.update before node .gray other = .white →
          before other = .white := by
        intro other white
        by_cases same : other = node
        · simp [same] at white
        · rwa [Function.update_of_ne same] at white
      split at result
      · cases result
      · split at result
        · cases result
        · rename_i searched
          cases result
          exact fun other white => entered other (searchNeighbors_whites ih searched other white)
        · rename_i middle searched
          cases result
          intro other white
          by_cases same : other = node
          · simp [same] at white
          · rw [Function.update_of_ne same] at white
            exact entered other (searchNeighbors_whites ih searched other white)

/-- A search that does not come back with nothing found: it stops at a neighbor
of the node behind neighbors that are settled, which is gray or stops the search
below it. -/
structure StopsAt (graph : DirectedAcyclicGraph Name)
    (search : ColorMap Name → Name → Except Fault (Bool × ColorMap Name))
    (before : ColorMap Name) (neighbors : List Name)
    (outcome : Except Fault (Bool × ColorMap Name)) (neighbor : Name) (visited : ColorMap Name) :
    Prop where
  position : ∃ earlier later, neighbors = earlier ++ neighbor :: later ∧
    ∀ other ∈ earlier, graph.table.Settled other
  settled : ∀ node, visited node = .black → graph.table.Settled node
  noNewGray : ∀ node, visited node = .gray → before node = .gray
  whites : ∀ node, visited node = .white → before node = .white
  stops : visited neighbor = .gray ∧ outcome = .ok (true, visited) ∨
    visited neighbor = .white ∧ search visited neighbor = outcome

theorem StopsAt.behind {search : ColorMap Name → Name → Except Fault (Bool × ColorMap Name)}
    {before middle visited : ColorMap Name} {first neighbor : Name} {rest : List Name}
    {outcome : Except Fault (Bool × ColorMap Name)}
    (stops : graph.StopsAt search middle rest outcome neighbor visited)
    (settled : graph.table.Settled first)
    (noNewGray : ∀ node, middle node = .gray → before node = .gray)
    (whites : ∀ node, middle node = .white → before node = .white) :
    graph.StopsAt search before (first :: rest) outcome neighbor visited where
  position := by
    obtain ⟨earlier, later, split, allSettled⟩ := stops.position
    exact ⟨first :: earlier, later, by rw [split]; rfl, List.forall_mem_cons.mpr
      ⟨settled, allSettled⟩⟩
  settled := stops.settled
  noNewGray node gray := noNewGray node (stops.noNewGray node gray)
  whites node white := whites node (stops.whites node white)
  stops := stops.stops

theorem searchNeighbors_stopsAt {fuel : Nat} {neighbors : List Name} {before : ColorMap Name}
    {outcome : Except Fault (Bool × ColorMap Name)}
    (settled : ∀ node, before node = .black → graph.table.Settled node)
    (result : searchNeighbors (graph.depthFirstSearch fuel) neighbors before = outcome)
    (stopped : ∀ after, outcome ≠ .ok (false, after)) :
    ∃ neighbor visited,
      graph.StopsAt (graph.depthFirstSearch fuel) before neighbors outcome neighbor visited := by
  induction neighbors generalizing before with
  | nil => exact absurd result.symm (stopped before)
  | cons first rest ih =>
      simp only [searchNeighbors] at result
      cases color : before first with
      | gray =>
          simp only [color] at result
          exact ⟨first, before, ⟨[], rest, rfl, by simp⟩, settled, fun _ gray => gray,
            fun _ white => white, .inl ⟨color, result.symm⟩⟩
      | black =>
          simp only [color] at result
          obtain ⟨neighbor, visited, stops⟩ := ih settled result
          exact ⟨neighbor, visited, stops.behind (settled first color) (fun _ gray => gray)
            fun _ white => white⟩
      | white =>
          simp only [color] at result
          have here : graph.depthFirstSearch fuel before first = outcome →
              ∃ neighbor visited, graph.StopsAt (graph.depthFirstSearch fuel) before
                (first :: rest) outcome neighbor visited := fun searched =>
            ⟨first, before, ⟨[], rest, rfl, by simp⟩, settled, fun _ gray => gray,
              fun _ white => white, .inr ⟨color, searched⟩⟩
          cases searched : graph.depthFirstSearch fuel before first with
          | error fault =>
              simp only [searched] at result
              exact here (searched.trans result)
          | ok reached =>
              obtain ⟨found, middle⟩ := reached
              cases found with
              | true =>
                  simp only [searched] at result
                  exact here (searched.trans result)
              | false =>
                  simp only [searched] at result
                  obtain ⟨explored, black⟩ :=
                    depthFirstSearch_explored fuel before first middle color settled searched
                  obtain ⟨neighbor, visited, stops⟩ := ih explored.settled result
                  exact ⟨neighbor, visited,
                    stops.behind (explored.settled first black) explored.noNewGray
                      (depthFirstSearch_whites fuel before first false middle searched)⟩

/-- A search that does not come back with nothing found misses the entry of its
node or stops at a neighbor. -/
theorem depthFirstSearch_stopsAt {fuel : Nat} {before : ColorMap Name} {node : Name}
    {outcome : Except Fault (Bool × ColorMap Name)}
    (settled : ∀ other, before other = .black → graph.table.Settled other)
    (result : graph.depthFirstSearch (fuel + 1) before node = outcome)
    (stopped : ∀ after, outcome ≠ .ok (false, after)) :
    (graph.table node = none ∧ outcome = .error .outOfRange) ∨
    ∃ neighbors neighbor visited, graph.table node = some neighbors ∧
      graph.StopsAt (graph.depthFirstSearch fuel) (Function.update before node .gray) neighbors
        outcome neighbor visited := by
  simp only [depthFirstSearch] at result
  cases entry : graph.adjacencyList.lookup node with
  | none =>
      simp only [dependenciesOf, entry] at result
      exact .inl ⟨entry, result.symm⟩
  | some neighbors =>
      simp only [dependenciesOf, entry] at result
      have enteredSettled : ∀ other, Function.update before node .gray other = .black →
          graph.table.Settled other := by
        intro other black
        by_cases same : other = node
        · simp [same] at black
        · rw [Function.update_of_ne same] at black
          exact settled other black
      have searched : searchNeighbors (graph.depthFirstSearch fuel) neighbors
          (Function.update before node .gray) = outcome := by
        split at result
        · rename_i failed
          exact failed.trans result
        · rename_i found
          exact found.trans result
        · exact absurd result.symm (stopped _)
      obtain ⟨neighbor, visited, stops⟩ := searchNeighbors_stopsAt enteredSettled searched stopped
      exact .inr ⟨neighbors, neighbor, visited, entry, stops⟩

theorem StopsAt.depends {search : ColorMap Name → Name → Except Fault (Bool × ColorMap Name)}
    {before visited : ColorMap Name} {node neighbor : Name} {neighbors : List Name}
    {outcome : Except Fault (Bool × ColorMap Name)}
    (stops : graph.StopsAt search before neighbors outcome neighbor visited)
    (entry : graph.table node = some neighbors) : graph.table.Depends node neighbor := by
  obtain ⟨earlier, later, rfl, _⟩ := stops.position
  exact ⟨_, entry, by simp⟩

theorem StopsAt.descends {search : ColorMap Name → Name → Except Fault (Bool × ColorMap Name)}
    {before visited : ColorMap Name} {node neighbor : Name} {neighbors : List Name}
    {outcome : Except Fault (Bool × ColorMap Name)}
    (stops : graph.StopsAt search before neighbors outcome neighbor visited)
    (entry : graph.table node = some neighbors) (unsettled : ¬ graph.table.Settled neighbor) :
    graph.table.Descends node neighbor := by
  obtain ⟨earlier, later, rfl, settled⟩ := stops.position
  exact ⟨earlier, later, entry, settled, unsettled⟩

/-- A node that is gray while a search is below another was gray before, or is
that other node. -/
theorem StopsAt.gray {search : ColorMap Name → Name → Except Fault (Bool × ColorMap Name)}
    {before visited : ColorMap Name} {node neighbor other : Name} {neighbors : List Name}
    {outcome : Except Fault (Bool × ColorMap Name)}
    (stops : graph.StopsAt search (Function.update before node .gray) neighbors outcome neighbor
      visited) (gray : visited other = .gray) : other = node ∨ before other = .gray := by
  by_cases same : other = node
  · exact .inl same
  · have earlier := stops.noNewGray other gray
    rw [Function.update_of_ne same] at earlier
    exact .inr earlier

/-! ### What a search finds -/

/-- A cycle found is a cycle: the gray nodes are those above the node. -/
theorem depthFirstSearch_reachesCycle (fuel : Nat) (before : ColorMap Name) (node : Name)
    (after : ColorMap Name)
    (settled : ∀ other, before other = .black → graph.table.Settled other)
    (above : ∀ other, before other = .gray → Relation.TransGen graph.table.Depends other node)
    (result : graph.depthFirstSearch fuel before node = .ok (true, after)) :
    graph.ReachesCycle node := by
  induction fuel generalizing before node with
  | zero => cases result
  | succ fuel ih =>
      rcases depthFirstSearch_stopsAt settled result (by simp) with
          ⟨_, impossible⟩ | ⟨neighbors, neighbor, visited, entry, stops⟩
      · cases impossible
      · have edge := stops.depends entry
        rcases stops.stops with ⟨gray, _⟩ | ⟨_, searched⟩
        · have cycle : Relation.TransGen graph.table.Depends node node := by
            rcases stops.gray gray with rfl | earlier
            · exact .single edge
            · exact .head edge (above neighbor earlier)
          exact ⟨node, .refl, cycle⟩
        · refine ReachesCycle.of_path (.single edge) (ih visited neighbor stops.settled ?_ searched)
          intro other gray
          rcases stops.gray gray with rfl | earlier
          · exact .single edge
          · exact (above other earlier).tail edge

/-- A search that faults was led to a missing name, or ran out of fuel. -/
theorem depthFirstSearch_fault (fuel : Nat) (before : ColorMap Name) (node : Name) (fault : Fault)
    (settled : ∀ other, before other = .black → graph.table.Settled other)
    (result : graph.depthFirstSearch fuel before node = .error fault) :
    fault = .outOfRange ∧ graph.table.LeadsToMissing node ∨ fault = .outOfFuel := by
  induction fuel generalizing before node with
  | zero =>
      cases result
      exact .inr rfl
  | succ fuel ih =>
      rcases depthFirstSearch_stopsAt settled result (by simp) with
          ⟨absent, same⟩ | ⟨neighbors, neighbor, visited, entry, stops⟩
      · exact .inl ⟨Except.error.inj same, DependencyTable.leadsToMissing_of_absent absent⟩
      · rcases stops.stops with ⟨_, impossible⟩ | ⟨_, searched⟩
        · cases impossible
        · refine (ih visited neighbor stops.settled searched).imp_left ?_
          intro led
          obtain ⟨thrown, leads⟩ := led
          exact ⟨thrown, (stops.descends entry leads.not_settled).leadsToMissing_iff.mpr leads⟩

/-- A search that finds a cycle was not led to a missing name: the descents from
the gray nodes lead to the node. -/
theorem depthFirstSearch_not_missing (fuel : Nat) (before : ColorMap Name) (node : Name)
    (after : ColorMap Name) (white : before node = .white)
    (settled : ∀ other, before other = .black → graph.table.Settled other)
    (trails : ∀ other, before other = .gray →
      Relation.ReflTransGen graph.table.Descends other node)
    (result : graph.depthFirstSearch fuel before node = .ok (true, after)) :
    ¬ graph.table.LeadsToMissing node := by
  induction fuel generalizing before node with
  | zero => cases result
  | succ fuel ih =>
      rcases depthFirstSearch_stopsAt settled result (by simp) with
          ⟨_, impossible⟩ | ⟨neighbors, neighbor, visited, entry, stops⟩
      · cases impossible
      · have edge := stops.depends entry
        have trailsWithin : ∀ other, visited other = .gray →
            Relation.ReflTransGen graph.table.Descends other node := by
          intro other gray
          rcases stops.gray gray with rfl | earlier
          · exact .refl
          · exact trails other earlier
        rcases stops.stops with ⟨gray, _⟩ | ⟨neighborWhite, searched⟩
        · have back := trailsWithin neighbor gray
          have depends : Relation.ReflTransGen graph.table.Depends neighbor node :=
            Relation.ReflTransGen.mono (fun _ _ => DependencyTable.Descends.depends) _ _ back
          have cycle : graph.ReachesCycle neighbor := ⟨node, depends, .head' edge depends⟩
          exact DependencyTable.not_leadsToMissing_of_cycle
            (.head' (stops.descends entry cycle.not_settled) back)
        · have cycle : graph.ReachesCycle neighbor := by
            apply depthFirstSearch_reachesCycle fuel visited neighbor after stops.settled ?_ searched
            intro other gray
            exact .tail' (Relation.ReflTransGen.mono
              (fun _ _ => DependencyTable.Descends.depends) _ _ (trailsWithin other gray)) edge
          have descends := stops.descends entry cycle.not_settled
          rw [descends.leadsToMissing_iff]
          exact ih visited neighbor neighborWhite stops.settled
            (fun other gray => (trailsWithin other gray).tail descends) searched

/-- Each entry that a search is below of uses up one key, so the fuel lasts. -/
theorem depthFirstSearch_fuel (fuel : Nat) (before : ColorMap Name) (node : Name) (fault : Fault)
    (white : before node = .white)
    (settled : ∀ other, before other = .black → graph.table.Settled other)
    (bound : (graph.keysWhere (isWhite before)).card < fuel)
    (result : graph.depthFirstSearch fuel before node = .error fault) : fault = .outOfRange := by
  induction fuel generalizing before node with
  | zero => exact absurd bound (Nat.not_lt_zero _)
  | succ fuel ih =>
      rcases depthFirstSearch_stopsAt settled result (by simp) with
          ⟨_, same⟩ | ⟨neighbors, neighbor, visited, entry, stops⟩
      · exact Except.error.inj same
      · rcases stops.stops with ⟨_, impossible⟩ | ⟨neighborWhite, searched⟩
        · cases impossible
        · refine ih visited neighbor neighborWhite stops.settled ?_ searched
          have entered : ∀ other, isWhite visited other = true → isWhite before other = true := by
            intro other unseen
            have early := stops.whites other (by simpa [isWhite] using unseen)
            by_cases same : other = node
            · simp [same] at early
            · rw [Function.update_of_ne same] at early
              simp [isWhite, early]
          have left : isWhite visited node = false := by
            simp only [isWhite, decide_eq_false_iff_not]
            intro unseen
            have early := stops.whites node unseen
            simp at early
          have fewer := keysWhere_lt (mem_keys_iff_table.mpr ⟨neighbors, entry⟩) entered
            (by simp [isWhite, white]) left
          exact Nat.lt_of_lt_of_le fewer (Nat.le_of_lt_succ bound)

/-! ### What the search over all keys decides -/

/-- The outcomes of the search over the keys, by what the first key that is not
settled leads to. -/
theorem searchKeys_decides {keys : List Name} {visited : ColorMap Name}
    (noGray : ∀ node, visited node ≠ .gray)
    (settled : ∀ node, visited node = .black → graph.table.Settled node) :
    (graph.table.MeetsMissing keys →
      searchKeys (graph.depthFirstSearch graph.recursionBound) keys visited = .error .outOfRange) ∧
    (¬ graph.table.MeetsMissing keys → ∃ found,
      searchKeys (graph.depthFirstSearch graph.recursionBound) keys visited = .ok found ∧
      (found = true → ∃ key, graph.ReachesCycle key)) := by
  induction keys generalizing visited with
  | nil => exact ⟨False.elim, fun _ => ⟨false, rfl, nofun⟩⟩
  | cons key rest ih =>
      simp only [searchKeys, DependencyTable.MeetsMissing]
      cases color : visited key with
      | gray => exact absurd color (noGray key)
      | black =>
          have keySettled := settled key color
          have notLed : ¬ graph.table.LeadsToMissing key := fun leads => leads.not_settled keySettled
          simpa [notLed, keySettled] using ih noGray settled
      | white =>
          cases searched : graph.depthFirstSearch graph.recursionBound visited key with
          | error fault =>
              obtain rfl := depthFirstSearch_fuel _ visited key fault color settled
                (graph.keysWhere_card_le _) searched
              have leads : graph.table.LeadsToMissing key := by
                rcases depthFirstSearch_fault _ visited key _ settled searched with
                    ⟨_, leads⟩ | impossible
                · exact leads
                · cases impossible
              exact ⟨fun _ => rfl, fun notMet => absurd (.inl leads) notMet⟩
          | ok reached =>
              obtain ⟨found, after⟩ := reached
              cases found with
              | true =>
                  have cycle := depthFirstSearch_reachesCycle _ visited key after settled
                    (fun other gray => absurd gray (noGray other)) searched
                  have notLed := depthFirstSearch_not_missing _ visited key after color settled
                    (fun other gray => absurd gray (noGray other)) searched
                  refine ⟨?_, fun _ => ⟨true, rfl, fun _ => ⟨key, cycle⟩⟩⟩
                  rintro (leads | ⟨keySettled, _⟩)
                  · exact absurd leads notLed
                  · exact absurd keySettled cycle.not_settled
              | false =>
                  obtain ⟨explored, black⟩ :=
                    depthFirstSearch_explored _ visited key after color settled searched
                  have keySettled := explored.settled key black
                  have notLed : ¬ graph.table.LeadsToMissing key :=
                    fun leads => leads.not_settled keySettled
                  have afterNoGray : ∀ node, after node ≠ .gray :=
                    fun node gray => noGray node (explored.noNewGray node gray)
                  simpa [notLed, keySettled] using ih afterNoGray explored.settled

theorem hasCycle_of_meetsMissing {order : List Name} (meets : graph.table.MeetsMissing order) :
    graph.hasCycle order = .error .outOfRange :=
  (@searchKeys_decides _ _ graph order (fun _ => .white) (by simp) (by simp)).1 meets

/-- A search that meets no missing name tells whether the graph has a cycle. -/
theorem hasCycle_of_not_meetsMissing {order : List Name}
    (complete : ∀ key, key ∈ graph.adjacencyList.keys → key ∈ order)
    (notMet : ¬ graph.table.MeetsMissing order) :
    ∃ found, graph.hasCycle order = .ok found ∧
      (found = true ↔ ¬ graph.table.Acyclic) := by
  obtain ⟨found, searched, cycle⟩ :=
    (@searchKeys_decides _ _ graph order (fun _ => .white) (by simp) (by simp)).2 notMet
  refine ⟨found, searched, ?_, ?_⟩
  · intro isTrue acyclic
    obtain ⟨_, looped, _, back⟩ := cycle isTrue
    exact acyclic looped back
  · intro cyclic
    cases found with
    | true => rfl
    | false =>
        exact absurd (DependencyTable.acyclic_of_settled
          (table_settled_of_hasCycle_eq_false complete searched)) cyclic

end BabyLuigi.DirectedAcyclicGraph
