import Mathlib.Logic.Relation
import Mathlib.Order.Bounds.Basic
import Mathlib.Order.WellFoundedSet

/-!
# Dependency tables

A table assigns to some nodes the list of nodes they depend on. Nothing bounds
the table: listed nodes may be absent, repeated, or depend on each other.
-/

set_option autoImplicit false

namespace BabyLuigi

abbrev DependencyTable (Node : Type) := Node → Option (List Node)

namespace DependencyTable

variable {Node : Type} {table : DependencyTable Node}

def Depends (table : DependencyTable Node) (node dependency : Node) : Prop :=
  ∃ dependencies, table node = some dependencies ∧ dependency ∈ dependencies

/-- Every listed node has an entry of its own. -/
def Closed (table : DependencyTable Node) : Prop :=
  ∀ node dependency, table.Depends node dependency → ∃ entry, table dependency = some entry

/-- Every node that a list names ahead of its own node has an entry. -/
def ClosedToSelf [DecidableEq Node] (table : DependencyTable Node) : Prop :=
  ∀ node dependencies, table node = some dependencies →
    ∀ dependency ∈ dependencies.takeWhile (· ≠ node), ∃ entry, table dependency = some entry

theorem Closed.toSelf [DecidableEq Node] (closed : table.Closed) : table.ClosedToSelf :=
  fun node dependencies entry dependency member =>
    closed node dependency ⟨dependencies, entry, (List.takeWhile_sublist _).subset member⟩

def Acyclic (table : DependencyTable Node) : Prop :=
  ∀ node, ¬ Relation.TransGen table.Depends node node

/-- Everything below a settled node has an entry, and the descent ends. -/
inductive Settled (table : DependencyTable Node) : Node → Prop where
  | intro {node : Node} {dependencies : List Node} :
      table node = some dependencies →
      (∀ dependency ∈ dependencies, Settled table dependency) → Settled table node

theorem Settled.exists_entry {node : Node} (settled : table.Settled node) :
    ∃ dependencies, table node = some dependencies := by
  cases settled with
  | intro entry _ => exact ⟨_, entry⟩

theorem Settled.depends {node dependency : Node} (settled : table.Settled node)
    (edge : table.Depends node dependency) : table.Settled dependency := by
  obtain ⟨listed, listedEntry, member⟩ := edge
  cases settled with
  | intro entry below =>
      obtain rfl := Option.some.inj (entry.symm.trans listedEntry)
      exact below dependency member

theorem closed_of_settled
    (settled : ∀ node dependencies, table node = some dependencies → table.Settled node) :
    table.Closed := by
  intro node dependency held
  obtain ⟨dependencies, entry, member⟩ := held
  exact ((settled node dependencies entry).depends ⟨dependencies, entry, member⟩).exists_entry

theorem Settled.not_cycle {node : Node} (settled : table.Settled node) :
    ¬ Relation.TransGen table.Depends node node := by
  induction settled with
  | intro entry _ ih =>
      intro cycle
      obtain ⟨dependency, edge, back⟩ := Relation.TransGen.head'_iff.mp cycle
      obtain ⟨listed, listedEntry, member⟩ := edge
      obtain rfl := Option.some.inj (entry.symm.trans listedEntry)
      exact ih dependency member (.tail' back ⟨_, entry, member⟩)

theorem acyclic_of_settled
    (settled : ∀ node dependencies, table node = some dependencies → table.Settled node) :
    table.Acyclic := by
  intro node cycle
  obtain ⟨_, edge, _⟩ := Relation.TransGen.head'_iff.mp cycle
  obtain ⟨dependencies, entry, _⟩ := edge
  exact (settled node dependencies entry).not_cycle cycle

theorem Acyclic.mono {larger smaller : DependencyTable Node} (acyclic : larger.Acyclic)
    (fewer : ∀ node dependency, smaller.Depends node dependency →
      larger.Depends node dependency) : smaller.Acyclic :=
  fun node cycle => acyclic node (Relation.TransGen.mono fewer _ _ cycle)

/-- A set of nodes that holds the dependencies of each of its members. -/
def DownwardClosed (table : DependencyTable Node) (done : Set Node) : Prop :=
  ∀ node ∈ done, ∀ dependency, table.Depends node dependency → dependency ∈ done

theorem DownwardClosed.transGen {done : Set Node} (closed : table.DownwardClosed done)
    {node dependency : Node} (member : node ∈ done)
    (path : Relation.TransGen table.Depends node dependency) : dependency ∈ done := by
  induction path with
  | single edge => exact closed _ member _ edge
  | tail _ edge ih => exact closed _ ih _ edge

theorem DownwardClosed.union {done added : Set Node} (closed : table.DownwardClosed done)
    (ready : ∀ node ∈ added, ∀ dependency, table.Depends node dependency → dependency ∈ done) :
    table.DownwardClosed (done ∪ added) := by
  intro node either dependency edge
  rcases either with member | member
  · exact .inl (closed node member dependency edge)
  · exact .inl (ready node member dependency edge)

/-- `done` holds every candidate with an entry whose dependencies it holds. -/
def Saturated (table : DependencyTable Node) (candidates done : Set Node) : Prop :=
  ∀ node ∈ candidates, ∀ dependencies, table node = some dependencies →
    (∀ dependency ∈ dependencies, dependency ∈ done) → node ∈ done

/-- Candidates that some order of completion reaches. -/
inductive Derivable (table : DependencyTable Node) (candidates : Set Node) : Node → Prop where
  | intro {node : Node} {dependencies : List Node} :
      node ∈ candidates → table node = some dependencies →
      (∀ dependency ∈ dependencies, Derivable table candidates dependency) →
      Derivable table candidates node

theorem isLeast_derivable (table : DependencyTable Node) (candidates : Set Node) :
    IsLeast {done | table.Saturated candidates done} {node | table.Derivable candidates node} := by
  constructor
  · intro node member dependencies entry derivable
    exact .intro member entry derivable
  · intro done saturated node derivable
    induction derivable with
    | intro member entry _ ih => exact saturated _ member _ entry ih

/-- A saturated set built only from ready candidates is the least one. -/
theorem isLeast_of_subset_derivable {candidates done : Set Node}
    (saturated : table.Saturated candidates done)
    (derivable : ∀ node ∈ done, table.Derivable candidates node) :
    IsLeast {done | table.Saturated candidates done} done :=
  ⟨saturated, fun _ other node member =>
    (isLeast_derivable table candidates).2 other (derivable node member)⟩

theorem Acyclic.wellFoundedOn {candidates : Set Node} (acyclic : table.Acyclic)
    (finite : candidates.Finite) :
    candidates.WellFoundedOn (fun lower upper => Relation.TransGen table.Depends upper lower) := by
  have : Finite candidates := finite
  have transitive : IsTrans candidates
      (Subrel (fun lower upper => Relation.TransGen table.Depends upper lower) (· ∈ candidates)) :=
    ⟨fun _ _ _ first second => second.trans first⟩
  have irreflexive : Std.Irrefl
      (Subrel (fun lower upper => Relation.TransGen table.Depends upper lower) (· ∈ candidates)) :=
    ⟨fun node => acyclic node⟩
  exact Finite.wellFounded_of_trans_of_irrefl _

/-- In a finite acyclic table whose entries are the candidates and whose
dependencies all have entries, every candidate is derivable. -/
theorem Acyclic.derivable {candidates : Set Node} (acyclic : table.Acyclic)
    (finite : candidates.Finite) (closed : table.Closed)
    (entries : ∀ node, node ∈ candidates ↔ ∃ dependencies, table node = some dependencies)
    {node : Node} (member : node ∈ candidates) : table.Derivable candidates node := by
  apply (acyclic.wellFoundedOn finite).induction member
  intro node member ih
  obtain ⟨dependencies, entry⟩ := (entries node).mp member
  refine .intro member entry ?_
  intro dependency listed
  have edge : table.Depends node dependency := ⟨dependencies, entry, listed⟩
  exact ih dependency ((entries dependency).mpr (closed node dependency edge)) (.single edge)

theorem Settled.of_path {node dependency : Node} (settled : table.Settled node)
    (path : Relation.ReflTransGen table.Depends node dependency) : table.Settled dependency := by
  induction path with
  | refl => exact settled
  | tail _ edge ih => exact ih.depends edge

/-! ### Orders -/

/-- Each node listed comes after everything it depends on. -/
def AfterDependencies (table : DependencyTable Node) (order : List Node) : Prop :=
  ∀ front node back, order = front ++ node :: back →
    ∀ dependency, table.Depends node dependency → dependency ∈ front

/-- Each node listed comes before everything it depends on. -/
def BeforeDependencies (table : DependencyTable Node) (order : List Node) : Prop :=
  ∀ front node back, order = front ++ node :: back →
    ∀ dependency, table.Depends node dependency → dependency ∈ back

theorem afterDependencies_nil : table.AfterDependencies [] := by
  intro front node back impossible
  simp at impossible

theorem AfterDependencies.concat {order : List Node} (sorted : table.AfterDependencies order)
    {last : Node} (ready : ∀ dependency, table.Depends last dependency → dependency ∈ order) :
    table.AfterDependencies (order ++ [last]) := by
  intro front node back split dependency edge
  rcases List.eq_nil_or_concat back with rfl | ⟨rest, other, rfl⟩
  · obtain ⟨rfl, same⟩ := List.append_inj' split rfl
    obtain rfl := List.singleton_inj.mp same
    exact ready dependency edge
  · have regrouped : order ++ [last] = (front ++ node :: rest) ++ [other] := by simpa using split
    exact sorted front node rest (List.append_inj' regrouped rfl).1 dependency edge

theorem AfterDependencies.reverse {order : List Node} (sorted : table.AfterDependencies order) :
    table.BeforeDependencies order.reverse := by
  intro front node back split dependency edge
  have original : order = back.reverse ++ node :: front.reverse := by
    rw [← List.reverse_reverse order, split]
    simp
  exact List.mem_reverse.mp (sorted _ node _ original dependency edge)

/-- An order without repetitions has every node on both sides of its
dependencies only if there are none. -/
theorem BeforeDependencies.not_after {order : List Node} (nodup : order.Nodup)
    (before : table.BeforeDependencies order) (after : table.AfterDependencies order)
    {node dependency : Node} (listed : node ∈ order) : ¬ table.Depends node dependency := by
  intro edge
  obtain ⟨front, back, rfl⟩ := List.append_of_mem listed
  have inFront := after front node back rfl dependency edge
  have inBack := before front node back rfl dependency edge
  exact (List.nodup_append.mp nodup).2.2 dependency inFront dependency
    (List.mem_cons_of_mem _ inBack) rfl

/-! ### Descents -/

/-- From a node a descent goes on to the first node listed that is not settled. -/
def Descends (table : DependencyTable Node) (node next : Node) : Prop :=
  ∃ earlier later, table node = some (earlier ++ next :: later) ∧
    (∀ dependency ∈ earlier, table.Settled dependency) ∧ ¬ table.Settled next

theorem Descends.depends {node next : Node} (descends : table.Descends node next) :
    table.Depends node next := by
  obtain ⟨earlier, later, entry, _⟩ := descends
  exact ⟨_, entry, by simp⟩

theorem Descends.unique {node first second : Node} (toFirst : table.Descends node first)
    (toSecond : table.Descends node second) : first = second := by
  obtain ⟨earlier, later, entry, settled, unsettled⟩ := toFirst
  obtain ⟨otherEarlier, otherLater, otherEntry, otherSettled, otherUnsettled⟩ := toSecond
  have same : earlier ++ first :: later = otherEarlier ++ second :: otherLater :=
    Option.some.inj (entry.symm.trans otherEntry)
  rcases List.append_eq_append_iff.mp same with
      ⟨between, otherEq, rest⟩ | ⟨between, earlierEq, rest⟩
  · cases between with
    | nil => exact (List.cons.inj rest).1
    | cons head tail =>
        obtain ⟨rfl, _⟩ := List.cons.inj rest
        exact absurd (otherSettled first (by simp [otherEq])) unsettled
  · cases between with
    | nil => exact (List.cons.inj rest).1.symm
    | cons head tail =>
        obtain ⟨rfl, _⟩ := List.cons.inj rest
        exact absurd (settled second (by simp [earlierEq])) otherUnsettled

/-- The descent from the node ends at a name without an entry. -/
def LeadsToMissing (table : DependencyTable Node) (node : Node) : Prop :=
  ∃ missing, Relation.ReflTransGen table.Descends node missing ∧ table missing = none

theorem LeadsToMissing.not_settled {node : Node} (leads : table.LeadsToMissing node) :
    ¬ table.Settled node := by
  obtain ⟨missing, path, absent⟩ := leads
  intro settled
  have reached := settled.of_path
    (Relation.ReflTransGen.mono (fun _ _ => Descends.depends) _ _ path)
  obtain ⟨dependencies, entry⟩ := reached.exists_entry
  cases absent.symm.trans entry

theorem leadsToMissing_of_absent {node : Node} (absent : table node = none) :
    table.LeadsToMissing node := ⟨node, .refl, absent⟩

theorem Descends.leadsToMissing_iff {node next : Node} (descends : table.Descends node next) :
    table.LeadsToMissing node ↔ table.LeadsToMissing next := by
  constructor
  · intro leads
    obtain ⟨missing, path, absent⟩ := leads
    rcases Relation.ReflTransGen.cases_head path with rfl | ⟨other, first, rest⟩
    · obtain ⟨dependencies, entry, _⟩ := descends.depends
      cases absent.symm.trans entry
    · obtain rfl := first.unique descends
      exact ⟨missing, rest, absent⟩
  · intro leads
    obtain ⟨missing, path, absent⟩ := leads
    exact ⟨missing, .head descends path, absent⟩

/-- A descent that returns to its node never ends. -/
theorem not_leadsToMissing_of_cycle {node : Node}
    (cycle : Relation.TransGen table.Descends node node) : ¬ table.LeadsToMissing node := by
  intro leads
  obtain ⟨missing, path, absent⟩ := leads
  induction path using Relation.ReflTransGen.head_induction_on with
  | refl =>
      obtain ⟨next, first, _⟩ := Relation.TransGen.head'_iff.mp cycle
      obtain ⟨dependencies, entry, _⟩ := first.depends
      cases absent.symm.trans entry
  | head step _ ih =>
      obtain ⟨next, first, back⟩ := Relation.TransGen.head'_iff.mp cycle
      obtain rfl := first.unique step
      exact ih (.tail' back step)

/-- The first of the nodes that is not settled leads to a missing name. -/
def MeetsMissing (table : DependencyTable Node) : List Node → Prop
  | [] => False
  | node :: rest =>
    table.LeadsToMissing node ∨ table.Settled node ∧ table.MeetsMissing rest

/-- In a closed table no descent ends at a missing name. -/
theorem Closed.not_leadsToMissing {node : Node} (closed : table.Closed)
    {dependencies : List Node} (entry : table node = some dependencies) :
    ¬ table.LeadsToMissing node := by
  intro leads
  obtain ⟨missing, path, absent⟩ := leads
  have present : ∃ listed, table missing = some listed := by
    clear absent
    induction path with
    | refl => exact ⟨_, entry⟩
    | tail _ step _ => exact closed _ _ step.depends
  obtain ⟨listed, found⟩ := present
  cases absent.symm.trans found

theorem Closed.not_meetsMissing {nodes : List Node} (closed : table.Closed)
    (entries : ∀ node ∈ nodes, ∃ dependencies, table node = some dependencies) :
    ¬ table.MeetsMissing nodes := by
  induction nodes with
  | nil => exact id
  | cons node rest ih =>
      obtain ⟨⟨dependencies, entry⟩, restEntries⟩ := List.forall_mem_cons.mp entries
      rintro (leads | ⟨_, meets⟩)
      · exact closed.not_leadsToMissing entry leads
      · exact ih restEntries meets

end DependencyTable

end BabyLuigi
