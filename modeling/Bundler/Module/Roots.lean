import Bundler.Ordered.Set
import Bundler.Ordered.Walk
/-!
# Roots of a dependency graph

The roots of a set of items are what one has to start from to reach all of them. Items that reach
each other form a component. A component that nothing outside it depends on contributes those of
its members that most members of the component depend on.
-/
namespace Bundler

variable {κ : Type u} [DecidableEq κ]

/-- The map that gives every member of a set its value, in the order of the set. -/
def OrderedSet.toMap {β : Type v} (s : OrderedSet κ) (f : κ → β) : OrderedMap κ β :=
  ⟨s.toList.map fun k => (k, f k), by
    have : (s.toList.map fun k => (k, f k)).map Prod.fst = s.toList := by
      rw [List.map_map]; exact List.map_id _
    rw [this]; exact s.nodup⟩

/-- Items with those of their dependencies that are items themselves. -/
structure Dependencies (κ : Type u) where
  targets : OrderedMap κ (List κ)

namespace Dependencies

/-- The dependencies of items on each other. An item that is given twice is one item. -/
def among (items : List κ) (dependencies : κ → List κ) : Dependencies κ :=
  let set := OrderedSet.ofList items
  ⟨set.toMap fun k => (dependencies k).filter (· ∈ set)⟩

/-- The items, each once, in the order in which they were given. -/
def items (d : Dependencies κ) : List κ := d.targets.keys

/-- The items that depend on an item, each once. -/
def sources (d : Dependencies κ) (b : κ) : List κ :=
  (d.targets.toList.filter fun e => e.2.contains b).map Prod.fst

/-- The graph the other way around: for each item those that depend on it. -/
def dependents (d : Dependencies κ) : OrderedMap κ (List κ) :=
  d.targets.mapValues fun k _ => d.sources k

/-- Those items of a list that are reached neither from `seen` nor from an item before them in the
list. Whatever is reached from `seen` has to be in `seen`. -/
def unreached (d : Dependencies κ) (seen : List κ) : List κ → List κ
  | [] => []
  | a :: rest =>
    if a ∈ seen then d.unreached seen rest
    else a :: d.unreached (d.targets.walkFrom (fun _ targets => targets) seen [a]) rest

/-- One item of every component that nothing outside it depends on. Such a component is entered
at the first of its items only; an item of another component is reached from one of these, if not
from one before it then from one behind it. -/
def leaders (d : Dependencies κ) : List κ :=
  d.unreached [] (d.unreached [] d.items).reverse

end Dependencies

/-- The members of a component that most of its members depend on. The component is given by one
member; it holds all that reaches the member, since nothing outside depends on it. -/
def mostWanted (dependents : OrderedMap κ (List κ)) (leader : κ) : List κ :=
  let component := dependents.walk (fun _ sources => sources) [leader]
  let count := fun k => ((dependents.get? k).getD []).length
  let most := (component.map count).foldl max 0
  component.filter fun k => count k = most

/-- The roots of items under a dependency relation, sorted by `le`. -/
def rootsOf (le : κ → κ → Bool) (items : List κ) (dependencies : κ → List κ) : List κ :=
  let d := Dependencies.among items dependencies
  (d.leaders.flatMap (mostWanted d.dependents)).mergeSort le

namespace Dependencies

/-- The number of the component that an item is in. -/
def componentOf (components : List (List κ)) (a : κ) : Nat := components.findIdx (a ∈ ·)

/-- How many members of the component with the number `i` depend on an item. -/
def incomingWithin (d : Dependencies κ) (components : List (List κ)) (i : Nat) (v : κ) : Nat :=
  ((d.sources v).filter fun a => componentOf components a = i).length

/-- What the component with the number `i` contributes: nothing if an item of another component
depends on one of its members, and else the members that most of its members depend on. -/
def rootsIn (d : Dependencies κ) (components : List (List κ)) (component : List κ) (i : Nat) :
    List κ :=
  let externalIncoming := component.any fun v =>
    (d.sources v).any fun a => componentOf components a ≠ i
  if externalIncoming then []
  else
    let most := (component.map (d.incomingWithin components i)).max?
    component.filter fun v => some (d.incomingWithin components i v) = most

end Dependencies

/-- The roots, found one component after another, where `split` divides items into components. -/
def rootsByComponents (le : κ → κ → Bool) (split : Dependencies κ → List (List κ))
    (items : List κ) (dependencies : κ → List κ) : List κ :=
  let d := Dependencies.among items dependencies
  let components := split d
  (components.zipIdx.flatMap fun (component, i) =>
    d.rootsIn components component i).mergeSort le

end Bundler
