import BabyLuigi.Graph
import BabyLuigi.Support.DependencyTable
import Mathlib.Data.Finset.Card

/-! The searches over an adjacency list against its dependency table: what a
negative cycle search establishes, and when no search faults. -/

set_option autoImplicit false

namespace BabyLuigi.DirectedAcyclicGraph

variable {Name : Type} [DecidableEq Name]

/-- The adjacency list without its iteration order. -/
def table (graph : DirectedAcyclicGraph Name) : DependencyTable Name :=
  fun name => graph.adjacencyList.lookup name

theorem dependenciesOf_of_table {graph : DirectedAcyclicGraph Name} {name : Name}
    {dependencies : List Name} (entry : graph.table name = some dependencies) :
    graph.dependenciesOf name = .ok dependencies := by
  simp only [table] at entry
  simp only [dependenciesOf, entry]

theorem table_of_dependenciesOf {graph : DirectedAcyclicGraph Name} {name : Name}
    {dependencies : List Name} (found : graph.dependenciesOf name = .ok dependencies) :
    graph.table name = some dependencies := by
  cases entry : graph.adjacencyList.lookup name with
  | none => simp [dependenciesOf, entry] at found
  | some listed =>
      simp only [dependenciesOf, entry, Except.ok.injEq] at found
      exact entry.trans (congrArg some found)

theorem mem_keys_iff_table {graph : DirectedAcyclicGraph Name} {name : Name} :
    name ∈ graph.adjacencyList.keys ↔ ∃ dependencies, graph.table name = some dependencies :=
  UnorderedMap.isSome_lookup_iff.symm.trans Option.isSome_iff_exists

theorem contains_iff_mem_keys {graph : DirectedAcyclicGraph Name} {name : Name} :
    graph.contains name = true ↔ name ∈ graph.adjacencyList.keys := by
  simp [contains, AList.mem_keys]

theorem contains_iff_table {graph : DirectedAcyclicGraph Name} {name : Name} :
    graph.contains name = true ↔ ∃ dependencies, graph.table name = some dependencies :=
  contains_iff_mem_keys.trans mem_keys_iff_table

/-! ### Negative cycle searches -/

/-- What a search that found no cycle leaves behind: black nodes stay black
and are settled, and no node is left gray. -/
structure Explored (graph : DirectedAcyclicGraph Name) (before after : ColorMap Name) : Prop where
  settled : ∀ node, after node = .black → graph.table.Settled node
  keepsBlack : ∀ node, before node = .black → after node = .black
  noNewGray : ∀ node, after node = .gray → before node = .gray

theorem Explored.trans {graph : DirectedAcyclicGraph Name} {first second third : ColorMap Name}
    (left : Explored graph first second) (right : Explored graph second third) :
    Explored graph first third where
  settled := right.settled
  keepsBlack node black := right.keepsBlack node (left.keepsBlack node black)
  noNewGray node gray := left.noNewGray node (right.noNewGray node gray)

/-- A search from a settled node that is gray meanwhile and black afterwards. -/
theorem Explored.around {graph : DirectedAcyclicGraph Name} {before middle : ColorMap Name}
    {node : Name} (explored : Explored graph (Function.update before node .gray) middle)
    (settled : graph.table.Settled node) :
    Explored graph before (Function.update middle node .black) where
  settled other black := by
    by_cases same : other = node
    · exact same ▸ settled
    · rw [Function.update_of_ne same] at black
      exact explored.settled other black
  keepsBlack other black := by
    by_cases same : other = node
    · rw [same, Function.update_self]
    · rw [Function.update_of_ne same]
      exact explored.keepsBlack other ((Function.update_of_ne same _ _).trans black)
  noNewGray other gray := by
    by_cases same : other = node
    · simp [same] at gray
    · rw [Function.update_of_ne same] at gray
      exact (Function.update_of_ne same _ _).symm.trans (explored.noNewGray other gray)

theorem searchNeighbors_explored {graph : DirectedAcyclicGraph Name}
    {search : ColorMap Name → Name → Except Fault (Bool × ColorMap Name)}
    (explores : ∀ before node after, before node = .white →
      (∀ other, before other = .black → graph.table.Settled other) →
      search before node = .ok (false, after) →
      Explored graph before after ∧ after node = .black)
    {neighbors : List Name} {before after : ColorMap Name}
    (settled : ∀ node, before node = .black → graph.table.Settled node)
    (result : searchNeighbors search neighbors before = .ok (false, after)) :
    Explored graph before after ∧ ∀ neighbor ∈ neighbors, after neighbor = .black := by
  induction neighbors generalizing before with
  | nil =>
      simp only [searchNeighbors, Except.ok.injEq, Prod.mk.injEq, true_and] at result
      subst after
      exact ⟨⟨settled, fun _ black => black, fun _ gray => gray⟩, by simp⟩
  | cons neighbor rest ih =>
      simp only [searchNeighbors] at result
      cases color : before neighbor with
      | gray => simp [color] at result
      | black =>
          simp only [color] at result
          obtain ⟨explored, black⟩ := ih settled result
          exact ⟨explored, List.forall_mem_cons.mpr ⟨explored.keepsBlack neighbor color, black⟩⟩
      | white =>
          simp only [color] at result
          cases searched : search before neighbor with
          | error fault => simp [searched] at result
          | ok outcome =>
              obtain ⟨found, middle⟩ := outcome
              cases found with
              | true => simp [searched] at result
              | false =>
                  simp only [searched] at result
                  obtain ⟨first, neighborBlack⟩ := explores before neighbor middle color settled searched
                  obtain ⟨second, black⟩ := ih first.settled result
                  exact ⟨first.trans second,
                    List.forall_mem_cons.mpr ⟨second.keepsBlack neighbor neighborBlack, black⟩⟩

theorem depthFirstSearch_explored {graph : DirectedAcyclicGraph Name} (fuel : Nat)
    (before : ColorMap Name) (node : Name) (after : ColorMap Name) (white : before node = .white)
    (settled : ∀ other, before other = .black → graph.table.Settled other)
    (result : graph.depthFirstSearch fuel before node = .ok (false, after)) :
    Explored graph before after ∧ after node = .black := by
  induction fuel generalizing before node after with
  | zero => simp [depthFirstSearch] at result
  | succ fuel ih =>
      simp only [depthFirstSearch] at result
      cases entry : graph.dependenciesOf node with
      | error fault => simp [entry] at result
      | ok neighbors =>
          simp only [entry] at result
          cases searched : searchNeighbors (graph.depthFirstSearch fuel) neighbors
              (Function.update before node .gray) with
          | error fault => simp [searched] at result
          | ok outcome =>
              obtain ⟨found, middle⟩ := outcome
              cases found with
              | true => simp [searched] at result
              | false =>
                  simp only [searched, Except.ok.injEq, Prod.mk.injEq, true_and] at result
                  subst after
                  have enteredSettled : ∀ other, Function.update before node .gray other = .black →
                      graph.table.Settled other := by
                    intro other black
                    by_cases same : other = node
                    · simp [same] at black
                    · rw [Function.update_of_ne same] at black
                      exact settled other black
                  obtain ⟨explored, black⟩ := searchNeighbors_explored ih enteredSettled searched
                  have nodeSettled : graph.table.Settled node :=
                    .intro (table_of_dependenciesOf entry) fun neighbor member =>
                      explored.settled neighbor (black neighbor member)
                  exact ⟨explored.around nodeSettled, Function.update_self ..⟩

theorem searchKeys_settled {graph : DirectedAcyclicGraph Name} {fuel : Nat} {keys : List Name}
    {visited : ColorMap Name} (noGray : ∀ node, visited node ≠ .gray)
    (settled : ∀ node, visited node = .black → graph.table.Settled node)
    (result : searchKeys (graph.depthFirstSearch fuel) keys visited = .ok false) :
    ∀ key ∈ keys, graph.table.Settled key := by
  induction keys generalizing visited with
  | nil => simp
  | cons key rest ih =>
      simp only [searchKeys] at result
      cases color : visited key with
      | gray => exact absurd color (noGray key)
      | black =>
          simp only [color] at result
          exact List.forall_mem_cons.mpr ⟨settled key color, ih noGray settled result⟩
      | white =>
          simp only [color] at result
          cases searched : graph.depthFirstSearch fuel visited key with
          | error fault => simp [searched] at result
          | ok outcome =>
              obtain ⟨found, after⟩ := outcome
              cases found with
              | true => simp [searched] at result
              | false =>
                  simp only [searched] at result
                  obtain ⟨explored, black⟩ :=
                    depthFirstSearch_explored fuel visited key after color settled searched
                  have afterNoGray : ∀ node, after node ≠ .gray :=
                    fun node gray => noGray node (explored.noNewGray node gray)
                  exact List.forall_mem_cons.mpr
                    ⟨explored.settled key black, ih afterNoGray explored.settled result⟩

/-- A cycle search that finds nothing has followed every dependency of every
visited key to an entry of its own. -/
theorem settled_of_hasCycle_eq_false {graph : DirectedAcyclicGraph Name} {order : List Name}
    (result : graph.hasCycle order = .ok false) : ∀ key ∈ order, graph.table.Settled key :=
  searchKeys_settled (by simp) (by simp) result

/-! ### Fault-free searches -/

/-- Keys that a predicate on nodes still selects. -/
def keysWhere (graph : DirectedAcyclicGraph Name) (selects : Name → Bool) : Finset Name :=
  graph.adjacencyList.keys.toFinset.filter fun key => selects key

theorem keysWhere_card_le (graph : DirectedAcyclicGraph Name) (selects : Name → Bool) :
    (graph.keysWhere selects).card < graph.recursionBound :=
  Nat.lt_succ_of_le ((Finset.card_filter_le _ _).trans (List.toFinset_card_le _))

theorem keysWhere_mono (graph : DirectedAcyclicGraph Name) {before after : Name → Bool}
    (fewer : ∀ node, after node = true → before node = true) :
    (graph.keysWhere after).card ≤ (graph.keysWhere before).card :=
  Finset.card_le_card fun node member =>
    Finset.mem_filter.mpr ((Finset.mem_filter.mp member).imp_right (fewer node))

theorem keysWhere_lt {graph : DirectedAcyclicGraph Name} {before after : Name → Bool} {node : Name}
    (member : node ∈ graph.adjacencyList.keys)
    (fewer : ∀ other, after other = true → before other = true)
    (selected : before node = true) (dropped : after node = false) :
    (graph.keysWhere after).card < (graph.keysWhere before).card := by
  apply Finset.card_lt_card
  constructor
  · intro other remains
    exact Finset.mem_filter.mpr ((Finset.mem_filter.mp remains).imp_right (fewer other))
  · intro same
    have inBefore : node ∈ graph.keysWhere before :=
      Finset.mem_filter.mpr ⟨List.mem_toFinset.mpr member, selected⟩
    have inAfter := (Finset.mem_filter.mp (same inBefore)).2
    rw [dropped] at inAfter
    cases inAfter

def isWhite (visited : ColorMap Name) (node : Name) : Bool := visited node = .white

/-- How a search changes the colors: nothing turns white, and gray stays. -/
structure Advances (before after : ColorMap Name) : Prop where
  white : ∀ node, after node = .white → before node = .white
  gray : ∀ node, before node = .gray → after node = .gray

omit [DecidableEq Name] in
theorem Advances.refl (visited : ColorMap Name) : Advances visited visited where
  white _ white := white
  gray _ gray := gray

omit [DecidableEq Name] in
theorem Advances.trans {first second third : ColorMap Name} (left : Advances first second)
    (right : Advances second third) : Advances first third where
  white node white := left.white node (right.white node white)
  gray node gray := right.gray node (left.gray node gray)

theorem Advances.enter {visited : ColorMap Name} {node : Name} (white : visited node = .white) :
    Advances visited (Function.update visited node .gray) where
  white other otherWhite := by
    by_cases same : other = node
    · exact same ▸ white
    · rwa [Function.update_of_ne same] at otherWhite
  gray other otherGray := by
    by_cases same : other = node
    · rw [same, Function.update_self]
    · rwa [Function.update_of_ne same]

theorem Advances.leave {before after : ColorMap Name} {node : Name}
    (advances : Advances before after) (white : before node = .white) :
    Advances before (Function.update after node .black) where
  white other otherWhite := by
    by_cases same : other = node
    · exact same ▸ white
    · rw [Function.update_of_ne same] at otherWhite
      exact advances.white other otherWhite
  gray other otherGray := by
    have different : other ≠ node := by
      rintro rfl
      cases white.symm.trans otherGray
    rw [Function.update_of_ne different]
    exact advances.gray other otherGray

/-- The loop stops at the node that is being searched, so the names after it
need no entry. -/
theorem searchNeighbors_total {graph : DirectedAcyclicGraph Name} {fuel : Nat} {node : Name}
    {search : ColorMap Name → Name → Except Fault (Bool × ColorMap Name)}
    (total : ∀ visited node, node ∈ graph.adjacencyList.keys → visited node = .white →
      (graph.keysWhere (isWhite visited)).card ≤ fuel →
      ∃ found after, search visited node = .ok (found, after) ∧ Advances visited after)
    {neighbors : List Name}
    (keys : ∀ neighbor ∈ neighbors.takeWhile (· ≠ node), neighbor ∈ graph.adjacencyList.keys)
    {visited : ColorMap Name} (gray : visited node = .gray)
    (bound : (graph.keysWhere (isWhite visited)).card ≤ fuel) :
    ∃ found after, searchNeighbors search neighbors visited = .ok (found, after) ∧
      Advances visited after := by
  induction neighbors generalizing visited with
  | nil => exact ⟨false, visited, rfl, .refl visited⟩
  | cons neighbor rest ih =>
      simp only [searchNeighbors]
      cases color : visited neighbor with
      | gray => exact ⟨true, visited, rfl, .refl visited⟩
      | black =>
          have different : neighbor ≠ node := by
            rintro rfl
            cases color.symm.trans gray
          rw [List.takeWhile_cons_of_pos (by simpa using different)] at keys
          exact ih (List.forall_mem_cons.mp keys).2 gray bound
      | white =>
          have different : neighbor ≠ node := by
            rintro rfl
            cases color.symm.trans gray
          rw [List.takeWhile_cons_of_pos (by simpa using different)] at keys
          obtain ⟨neighborKey, restKeys⟩ := List.forall_mem_cons.mp keys
          obtain ⟨found, middle, searched, first⟩ := total visited neighbor neighborKey color bound
          simp only [searched]
          cases found with
          | true => exact ⟨true, middle, rfl, first⟩
          | false =>
              have middleBound : (graph.keysWhere (isWhite middle)).card ≤ fuel :=
                (graph.keysWhere_mono (by simpa [isWhite] using first.white)).trans bound
              obtain ⟨found, after, finished, second⟩ :=
                ih restKeys (first.gray node gray) middleBound
              exact ⟨found, after, finished, first.trans second⟩

theorem depthFirstSearch_total {graph : DirectedAcyclicGraph Name}
    (closed : graph.table.ClosedToSelf) (fuel : Nat) (visited : ColorMap Name) (node : Name)
    (member : node ∈ graph.adjacencyList.keys) (white : visited node = .white)
    (bound : (graph.keysWhere (isWhite visited)).card ≤ fuel) :
    ∃ found after, graph.depthFirstSearch fuel visited node = .ok (found, after) ∧
      Advances visited after := by
  induction fuel generalizing visited node with
  | zero =>
      have selected : node ∈ graph.keysWhere (isWhite visited) :=
        Finset.mem_filter.mpr ⟨List.mem_toFinset.mpr member, by simp [isWhite, white]⟩
      exact absurd selected (by simp [Finset.card_eq_zero.mp (Nat.le_zero.mp bound)])
  | succ fuel ih =>
      obtain ⟨neighbors, entry⟩ := mem_keys_iff_table.mp member
      have neighborKeys : ∀ neighbor ∈ neighbors.takeWhile (· ≠ node),
          neighbor ∈ graph.adjacencyList.keys :=
        fun neighbor listed => mem_keys_iff_table.mpr (closed node neighbors entry neighbor listed)
      have entered : Advances visited (Function.update visited node .gray) := .enter white
      have fewer : (graph.keysWhere (isWhite (Function.update visited node .gray))).card <
          (graph.keysWhere (isWhite visited)).card :=
        keysWhere_lt member (by simpa [isWhite] using entered.white) (by simp [isWhite, white])
          (by simp [isWhite])
      obtain ⟨found, middle, searched, advances⟩ := searchNeighbors_total ih neighborKeys
        (Function.update_self ..) (Nat.le_of_lt_succ (fewer.trans_le bound))
      simp only [depthFirstSearch, dependenciesOf_of_table entry, searched]
      cases found with
      | true => exact ⟨true, middle, rfl, entered.trans advances⟩
      | false => exact ⟨false, _, rfl, (entered.trans advances).leave white⟩

theorem searchKeys_total {graph : DirectedAcyclicGraph Name} (closed : graph.table.ClosedToSelf)
    {keys : List Name} (members : ∀ key ∈ keys, key ∈ graph.adjacencyList.keys)
    (visited : ColorMap Name) :
    ∃ found, searchKeys (graph.depthFirstSearch graph.recursionBound) keys visited = .ok found := by
  induction keys generalizing visited with
  | nil => exact ⟨false, rfl⟩
  | cons key rest ih =>
      obtain ⟨keyMember, restMembers⟩ := List.forall_mem_cons.mp members
      simp only [searchKeys]
      cases color : visited key with
      | gray => exact ih restMembers visited
      | black => exact ih restMembers visited
      | white =>
          obtain ⟨found, after, searched, _⟩ := depthFirstSearch_total closed graph.recursionBound
            visited key keyMember color (graph.keysWhere_card_le _).le
          simp only [searched]
          cases found with
          | true => exact ⟨true, rfl⟩
          | false => exact ih restMembers after

/-- A missing name is met only if a list names it ahead of its own node. -/
theorem hasCycle_total_of_closedToSelf {graph : DirectedAcyclicGraph Name}
    (closed : graph.table.ClosedToSelf) {order : List Name}
    (members : ∀ key ∈ order, key ∈ graph.adjacencyList.keys) :
    ∃ found, graph.hasCycle order = .ok found :=
  searchKeys_total closed members _

/-- In a closed graph the cycle search neither throws nor runs out of fuel. -/
theorem hasCycle_total {graph : DirectedAcyclicGraph Name} (closed : graph.table.Closed)
    {order : List Name} (members : ∀ key ∈ order, key ∈ graph.adjacencyList.keys) :
    ∃ found, graph.hasCycle order = .ok found :=
  hasCycle_total_of_closedToSelf closed.toSelf members

def isFresh (sorting : SortState Name) (node : Name) : Bool := sorting.state node = .notVisited

theorem dfsDependencies_total {graph : DirectedAcyclicGraph Name} {fuel : Nat}
    {visit : SortState Name → Name → Except Fault (SortState Name)}
    (total : ∀ sorting node, node ∈ graph.adjacencyList.keys →
      (graph.keysWhere (isFresh sorting)).card < fuel →
      ∃ after, visit sorting node = .ok after ∧
        ∀ other, isFresh after other = true → isFresh sorting other = true)
    {dependencies : List Name}
    (keys : ∀ dependency ∈ dependencies, dependency ∈ graph.adjacencyList.keys)
    {sorting : SortState Name} (bound : (graph.keysWhere (isFresh sorting)).card < fuel) :
    ∃ early after, dfsDependencies visit dependencies sorting = .ok (early, after) ∧
      ∀ other, isFresh after other = true → isFresh sorting other = true := by
  induction dependencies generalizing sorting with
  | nil => exact ⟨false, sorting, rfl, fun _ fresh => fresh⟩
  | cons dependency rest ih =>
      obtain ⟨dependencyKey, restKeys⟩ := List.forall_mem_cons.mp keys
      obtain ⟨middle, visited, fewer⟩ := total sorting dependency dependencyKey bound
      simp only [dfsDependencies, visited]
      split
      · exact ⟨true, middle, rfl, fewer⟩
      · have middleBound := (graph.keysWhere_mono fewer).trans_lt bound
        obtain ⟨early, after, finished, fewerAfter⟩ := ih restKeys middleBound
        exact ⟨early, after, finished, fun other fresh => fewer other (fewerAfter other fresh)⟩

theorem dfs_total {graph : DirectedAcyclicGraph Name} (closed : graph.table.Closed)
    (fuel : Nat) (sorting : SortState Name) (node : Name)
    (member : node ∈ graph.adjacencyList.keys)
    (bound : (graph.keysWhere (isFresh sorting)).card < fuel) :
    ∃ after, graph.dfs fuel sorting node = .ok after ∧
      ∀ other, isFresh after other = true → isFresh sorting other = true := by
  induction fuel generalizing sorting node with
  | zero => exact absurd bound (Nat.not_lt_zero _)
  | succ fuel ih =>
      simp only [dfs]
      cases visit : sorting.state node with
      | visiting => exact ⟨_, rfl, fun _ fresh => fresh⟩
      | visited => exact ⟨_, rfl, fun _ fresh => fresh⟩
      | notVisited =>
          obtain ⟨dependencies, entry⟩ := mem_keys_iff_table.mp member
          have dependencyKeys : ∀ dependency ∈ dependencies,
              dependency ∈ graph.adjacencyList.keys := fun dependency listed =>
            mem_keys_iff_table.mpr (closed node dependency ⟨dependencies, entry, listed⟩)
          have fresh : isFresh sorting node = true := by simp [isFresh, visit]
          have entered : ∀ other,
              isFresh { sorting with state := Function.update sorting.state node .visiting } other =
                true → isFresh sorting other = true := by
            intro other otherFresh
            by_cases same : other = node
            · exact same ▸ fresh
            · simpa [isFresh, Function.update_of_ne same] using otherFresh
          have fewer := keysWhere_lt member entered fresh (by simp [isFresh])
          obtain ⟨early, middle, visited, fewerMiddle⟩ :=
            dfsDependencies_total ih dependencyKeys (fewer.trans_le (Nat.le_of_lt_succ bound))
          simp only [dependenciesOf_of_table entry, visited]
          cases early with
          | true => exact ⟨_, rfl, fun other unseen => entered other (fewerMiddle other unseen)⟩
          | false =>
              refine ⟨_, rfl, ?_⟩
              intro other unseen
              by_cases same : other = node
              · exact same ▸ fresh
              · refine entered other (fewerMiddle other ?_)
                simpa [isFresh, Function.update_of_ne same] using unseen

theorem dfsKeys_total {graph : DirectedAcyclicGraph Name} (closed : graph.table.Closed)
    {keys : List Name} (members : ∀ key ∈ keys, key ∈ graph.adjacencyList.keys)
    (sorting : SortState Name) :
    ∃ sorted, dfsKeys (graph.dfs graph.recursionBound) keys sorting = .ok sorted := by
  induction keys generalizing sorting with
  | nil => exact ⟨_, rfl⟩
  | cons key rest ih =>
      obtain ⟨keyMember, restMembers⟩ := List.forall_mem_cons.mp members
      simp only [dfsKeys]
      cases visit : sorting.state key with
      | visiting => exact ih restMembers sorting
      | visited => exact ih restMembers sorting
      | notVisited =>
          obtain ⟨after, visited, _⟩ := dfs_total closed graph.recursionBound sorting key keyMember
            (graph.keysWhere_card_le _)
          simp only [visited]
          split
          · exact ⟨none, rfl⟩
          · exact ih restMembers after

/-- In a closed graph sorting neither throws nor runs out of fuel. -/
theorem topologicalSort_total {graph : DirectedAcyclicGraph Name} (closed : graph.table.Closed)
    {order : List Name} (members : ∀ key ∈ order, key ∈ graph.adjacencyList.keys) :
    ∃ sorted, graph.topologicalSort order = .ok sorted :=
  dfsKeys_total closed members _

/-! ### Sorted names -/

def SortsKeys (graph : DirectedAcyclicGraph Name) (sorting : SortState Name) : Prop :=
  ∀ name ∈ sorting.order, name ∈ graph.adjacencyList.keys

omit [DecidableEq Name] in
theorem dfsDependencies_sortsKeys {graph : DirectedAcyclicGraph Name}
    {visit : SortState Name → Name → Except Fault (SortState Name)}
    (visits : ∀ sorting node after, graph.SortsKeys sorting → visit sorting node = .ok after →
      graph.SortsKeys after)
    {dependencies : List Name} {sorting after : SortState Name} {early : Bool}
    (sorts : graph.SortsKeys sorting)
    (result : dfsDependencies visit dependencies sorting = .ok (early, after)) :
    graph.SortsKeys after := by
  induction dependencies generalizing sorting with
  | nil =>
      cases result
      exact sorts
  | cons dependency rest ih =>
      simp only [dfsDependencies] at result
      cases visited : visit sorting dependency with
      | error fault => simp [visited] at result
      | ok middle =>
          simp only [visited] at result
          have middleSorts := visits sorting dependency middle sorts visited
          split at result
          · cases result
            exact middleSorts
          · exact ih middleSorts result

theorem dfs_sortsKeys {graph : DirectedAcyclicGraph Name} (fuel : Nat)
    (sorting : SortState Name) (node : Name) (after : SortState Name)
    (sorts : graph.SortsKeys sorting) (result : graph.dfs fuel sorting node = .ok after) :
    graph.SortsKeys after := by
  induction fuel generalizing sorting node after with
  | zero => cases result
  | succ fuel ih =>
      simp only [dfs] at result
      split at result
      · cases result
        exact sorts
      · cases result
        exact sorts
      · cases found : graph.dependenciesOf node with
        | error fault => simp [found] at result
        | ok dependencies =>
            simp only [found] at result
            have entered : graph.SortsKeys
                { sorting with state := Function.update sorting.state node .visiting } := sorts
            split at result
            · cases result
            · rename_i visited
              cases result
              exact dfsDependencies_sortsKeys ih entered visited
            · rename_i visited
              cases result
              intro name listed
              rcases List.mem_append.mp listed with earlier | last
              · exact dfsDependencies_sortsKeys ih entered visited name earlier
              · obtain rfl := List.mem_singleton.mp last
                exact mem_keys_iff_table.mpr ⟨_, table_of_dependenciesOf found⟩

theorem dfsKeys_sortsKeys {graph : DirectedAcyclicGraph Name} {fuel : Nat} {keys : List Name}
    {sorting : SortState Name} {order : List Name} (sorts : graph.SortsKeys sorting)
    (result : dfsKeys (graph.dfs fuel) keys sorting = .ok (some order)) :
    ∀ name ∈ order, name ∈ graph.adjacencyList.keys := by
  induction keys generalizing sorting with
  | nil =>
      cases result
      exact fun name listed => sorts name (List.mem_reverse.mp listed)
  | cons key rest ih =>
      simp only [dfsKeys] at result
      split at result
      · exact ih sorts result
      · exact ih sorts result
      · split at result
        · cases result
        · rename_i after visited
          split at result
          · cases result
          · exact ih (dfs_sortsKeys fuel sorting key after sorts visited) result

theorem mem_keys_of_topologicalSort {graph : DirectedAcyclicGraph Name} {order sorted : List Name}
    (result : graph.topologicalSort order = .ok (some sorted)) :
    ∀ name ∈ sorted, name ∈ graph.adjacencyList.keys :=
  dfsKeys_sortsKeys (by intro name listed; cases listed) result

end BabyLuigi.DirectedAcyclicGraph
