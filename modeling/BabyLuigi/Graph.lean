import BabyLuigi.Support.UnorderedMap
import Mathlib.Data.Finset.Basic
import Mathlib.Logic.Function.Basic

/-!
# Task graphs

The adjacency list of a DAG with the two depth-first searches over it. Both
searches recurse through container lookups that throw on an absent key; fuel
bounds the recursion depth of the embedding.
-/

set_option autoImplicit false

namespace BabyLuigi

inductive GraphColor where
  | white
  | gray
  | black
  deriving DecidableEq, Repr

inductive GraphError where
  | dependenciesNotFound
  | containsDuplicates
  | taskCreatesCycle
  | taskNotFound
  deriving DecidableEq, Repr

inductive VisitState where
  | notVisited
  | visiting
  | visited
  deriving DecidableEq, Repr

/-- A call that ends without a value: it throws, its behaviour is undefined, or
it exhausts the fuel that bounds its recursion. -/
inductive Fault where
  | outOfRange
  | invalidArgument
  | jsonException
  | filesystemError
  | undefinedBehavior
  | outOfFuel
  deriving DecidableEq, Repr

/-- The faults that a `catch (...)` handles. -/
def Fault.isException : Fault → Bool
  | .outOfRange | .invalidArgument | .jsonException | .filesystemError => true
  | .undefinedBehavior | .outOfFuel => false

abbrev AdjacencyList (Name : Type) := UnorderedMap Name (List Name)

abbrev ColorMap (Name : Type) := Name → GraphColor

structure DirectedAcyclicGraph (Name : Type) where
  rootName : Name
  adjacencyList : AdjacencyList Name

namespace DirectedAcyclicGraph

variable {Name : Type} [DecidableEq Name]

/-- The constructor from a name: the name itself becomes the first key. -/
def ofName (name : Name) : DirectedAcyclicGraph Name where
  rootName := name
  adjacencyList := (UnorderedMap.emplace name [] ∅).1

def dependenciesOf (graph : DirectedAcyclicGraph Name) (name : Name) :
    Except Fault (List Name) :=
  match graph.adjacencyList.lookup name with
  | some dependencies => .ok dependencies
  | none => .error .outOfRange

def contains (graph : DirectedAcyclicGraph Name) (taskName : Name) : Bool :=
  taskName ∈ graph.adjacencyList

def isTaskReady (graph : DirectedAcyclicGraph Name) (completed : Finset Name) (name : Name) : Bool :=
  match graph.dependenciesOf name with
  | .ok dependencies => dependencies.all fun dependency => dependency ∈ completed
  | .error _ => false

/-- The loop over the neighbors of one node in `depthFirstSearch`. -/
def searchNeighbors (search : ColorMap Name → Name → Except Fault (Bool × ColorMap Name)) :
    List Name → ColorMap Name → Except Fault (Bool × ColorMap Name)
  | [], visited => .ok (false, visited)
  | neighbor :: rest, visited =>
    match visited neighbor with
    | .gray => .ok (true, visited)
    | .black => searchNeighbors search rest visited
    | .white =>
      match search visited neighbor with
      | .error fault => .error fault
      | .ok (true, visited) => .ok (true, visited)
      | .ok (false, visited) => searchNeighbors search rest visited

def depthFirstSearch (graph : DirectedAcyclicGraph Name) :
    Nat → ColorMap Name → Name → Except Fault (Bool × ColorMap Name)
  | 0, _, _ => .error .outOfFuel
  | fuel + 1, visited, node =>
    match graph.dependenciesOf node with
    | .error fault => .error fault
    | .ok neighbors =>
      match searchNeighbors (graph.depthFirstSearch fuel) neighbors
          (Function.update visited node .gray) with
      | .error fault => .error fault
      | .ok (true, visited) => .ok (true, visited)
      | .ok (false, visited) => .ok (false, Function.update visited node .black)

/-- The loop over the keys in `hasCycle`. -/
def searchKeys (search : ColorMap Name → Name → Except Fault (Bool × ColorMap Name)) :
    List Name → ColorMap Name → Except Fault Bool
  | [], _ => .ok false
  | key :: rest, visited =>
    match visited key with
    | .gray => searchKeys search rest visited
    | .black => searchKeys search rest visited
    | .white =>
      match search visited key with
      | .error fault => .error fault
      | .ok (true, _) => .ok true
      | .ok (false, visited) => searchKeys search rest visited

/-- No path of fresh nodes is longer than the number of keys. -/
def recursionBound (graph : DirectedAcyclicGraph Name) : Nat :=
  graph.adjacencyList.keys.length + 1

def hasCycle (graph : DirectedAcyclicGraph Name) (order : List Name) : Except Fault Bool :=
  searchKeys (graph.depthFirstSearch graph.recursionBound) order fun _ => .white

/-- The mutable state shared by the recursive calls of `dfs`. -/
structure SortState (Name : Type) where
  state : Name → VisitState
  hasCycle : Bool
  order : List Name

/-- The loop over the dependencies of one node in `dfs`; the flag tells
whether it returned early. -/
def dfsDependencies (visit : SortState Name → Name → Except Fault (SortState Name)) :
    List Name → SortState Name → Except Fault (Bool × SortState Name)
  | [], sorting => .ok (false, sorting)
  | dependency :: rest, sorting =>
    match visit sorting dependency with
    | .error fault => .error fault
    | .ok sorting =>
      if sorting.hasCycle then .ok (true, sorting) else dfsDependencies visit rest sorting

def dfs (graph : DirectedAcyclicGraph Name) :
    Nat → SortState Name → Name → Except Fault (SortState Name)
  | 0, _, _ => .error .outOfFuel
  | fuel + 1, sorting, node =>
    match sorting.state node with
    | .visiting => .ok { sorting with hasCycle := true }
    | .visited => .ok sorting
    | .notVisited =>
      match graph.dependenciesOf node with
      | .error fault => .error fault
      | .ok dependencies =>
        match dfsDependencies (graph.dfs fuel) dependencies
            { sorting with state := Function.update sorting.state node .visiting } with
        | .error fault => .error fault
        | .ok (true, sorting) => .ok sorting
        | .ok (false, sorting) =>
          .ok { sorting with
            state := Function.update sorting.state node .visited
            order := sorting.order ++ [node] }

/-- The loop over the keys in `topologicalSort`. -/
def dfsKeys (visit : SortState Name → Name → Except Fault (SortState Name)) :
    List Name → SortState Name → Except Fault (Option (List Name))
  | [], sorting => .ok (some sorting.order.reverse)
  | name :: rest, sorting =>
    match sorting.state name with
    | .visiting => dfsKeys visit rest sorting
    | .visited => dfsKeys visit rest sorting
    | .notVisited =>
      match visit sorting name with
      | .error fault => .error fault
      | .ok sorting => if sorting.hasCycle then .ok none else dfsKeys visit rest sorting

def topologicalSort (graph : DirectedAcyclicGraph Name) (order : List Name) :
    Except Fault (Option (List Name)) :=
  dfsKeys (graph.dfs graph.recursionBound) order
    { state := fun _ => .notVisited, hasCycle := false, order := [] }

def runOrder (graph : DirectedAcyclicGraph Name) (order : List Name) :
    Except Fault (Option (List Name)) :=
  graph.topologicalSort order

abbrev Traversal (Name : Type) := UnorderedMap.Traversal Name (List Name)

/-- The graph after the call and the value returned. The function is
`noexcept`: a fault inside it terminates the process. -/
def pushTask (graph : DirectedAcyclicGraph Name) (traversal : Traversal Name) (taskName : Name)
    (dependencies : Option (List Name)) :
    Except Fault (DirectedAcyclicGraph Name × Except GraphError Unit) :=
  if graph.contains taskName then
    .ok (graph, .error .containsDuplicates)
  else
    match UnorderedMap.emplace taskName (dependencies.getD []) graph.adjacencyList with
    | (_, false) => .ok (graph, .error .containsDuplicates)
    | (extended, true) =>
      match { graph with adjacencyList := extended }.hasCycle (traversal.order extended) with
      | .error fault => .error fault
      | .ok true =>
        .ok ({ graph with adjacencyList := extended.erase taskName }, .error .taskCreatesCycle)
      | .ok false => .ok ({ graph with adjacencyList := extended }, .ok ())

/-- Each dependency list loses the first occurrence of the name. -/
def removeTask (graph : DirectedAcyclicGraph Name) (taskName : Name) :
    DirectedAcyclicGraph Name × Except GraphError Unit :=
  if graph.contains taskName then
    ({ graph with
        adjacencyList :=
          (UnorderedMap.mapValues (fun dependencies => dependencies.erase taskName)
            graph.adjacencyList).erase taskName },
      .ok ())
  else
    (graph, .error .taskNotFound)

end DirectedAcyclicGraph

end BabyLuigi
