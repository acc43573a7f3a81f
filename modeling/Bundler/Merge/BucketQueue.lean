import Bundler.Merge.Buckets
/-!
# A queue that sorts late

A priority queue over layered buckets. Added items wait unsorted and are put into their buckets
when the first item is asked for, under the keys they have then. An item whose keys are about to
change is looked up first, taken out of its old place afterwards, and waits again.

Every operation is measured by the number of items really held, which taking the first item out
makes smaller.
-/
namespace Bundler

/-- Items that wait to be sorted, and sorted ones below `n + 1` layers. -/
structure BucketQueue (α : Type u) (n : Nat) where
  waiting : List α
  sorted : Layer (Buckets α n)

/-- What is known of an item before its keys change: its place, if it does not wait. -/
structure PendingUpdate (α : Type u) where
  item : α
  place : Option Place

namespace BucketQueue

variable {α : Type u} {n : Nat}

/-- A queue without items. No layer has a bucket yet. -/
def empty : BucketQueue α n := ⟨[], ⟨0, []⟩⟩

instance : Inhabited (BucketQueue α n) := ⟨empty⟩

/-- A queue in which the items of a list wait. The list holds no item twice. -/
def ofList (items : List α) : BucketQueue α n := { empty with waiting := items }

/-- The number of items by the counts that are kept, which is more than are held if an item came in
twice. -/
def size (q : BucketQueue α n) : Nat := q.waiting.length + q.sorted.count

/-- The number of items really held. -/
def cells (q : BucketQueue α n) : Nat := q.waiting.length + Buckets.cells (n + 1) q.sorted

@[simp] theorem cells_ofList (items : List α) :
    (ofList items : BucketQueue α n).cells = items.length := by
  simp [ofList, empty, cells, Buckets.cells, Buckets.total]

variable [DecidableEq α] [Ord α]

/-- Lets an item wait, unless it waits already. -/
def add (q : BucketQueue α n) (a : α) : BucketQueue α n :=
  if a ∈ q.waiting then q else { q with waiting := q.waiting ++ [a] }

/-- Takes a sorted item out of a place; fails if it is not there. -/
def eraseAt (q : BucketQueue α n) (a : α) (place : Place) : Option (BucketQueue α n) :=
  (Buckets.erase? (n + 1) place a q.sorted).map fun s => { q with sorted := s }

/-- Takes an item out, looking for it under its present keys; tells whether it was there. -/
def delete (q : BucketQueue α n) (keys : SortKeys α) (a : α) : BucketQueue α n × Bool :=
  if a ∈ q.waiting then ({ q with waiting := q.waiting.erase a }, true)
  else match q.eraseAt a (keys.place a) with
    | some q => (q, true)
    | none => (q, false)

/-- Puts all waiting items into their buckets, in the order in which they came. -/
def sortWaiting (q : BucketQueue α n) (keys : SortKeys α) : BucketQueue α n :=
  ⟨[], q.waiting.foldl (fun s a => Buckets.insert (n + 1) (keys.place a) a s) q.sorted⟩

/-- Takes the first item out, once all that wait are sorted under the present keys. -/
def popFirst (q : BucketQueue α n) (keys : SortKeys α) : Option α × BucketQueue α n :=
  match Buckets.popFirst (n + 1) (q.sortWaiting keys).sorted with
  | (item, s) => (item, ⟨[], s⟩)

/-- Notes where an item is before its keys change. -/
def startUpdate (q : BucketQueue α n) (keys : SortKeys α) (a : α) : PendingUpdate α :=
  ⟨a, if a ∈ q.waiting then none else some (keys.place a)⟩

/-- Takes a changed item out of its old place and lets it wait. -/
def finishUpdate (q : BucketQueue α n) (u : PendingUpdate α) : BucketQueue α n :=
  match u.place with
  | none => q
  | some place =>
    match q.eraseAt u.item place with
    | some q => q.add u.item
    | none => q

omit [Ord α] in
theorem cells_add_le (q : BucketQueue α n) (a : α) : (q.add a).cells ≤ q.cells + 1 := by
  unfold add cells; split <;> simp; omega

omit [DecidableEq α] in
theorem cells_eraseAt {q r : BucketQueue α n} {a : α} {place : Place}
    (h : q.eraseAt a place = some r) : r.cells < q.cells := by
  unfold eraseAt at h
  obtain ⟨s, hs, rfl⟩ := Option.map_eq_some_iff.1 h
  have := Buckets.cells_erase? hs
  simp only [cells]; omega

theorem cells_delete_le (q : BucketQueue α n) (keys : SortKeys α) (a : α) :
    (q.delete keys a).1.cells ≤ q.cells := by
  unfold delete
  split
  · have := List.length_erase_le (a := a) (l := q.waiting)
    simp only [cells]; omega
  · split
    · rename_i h; exact Nat.le_of_lt (cells_eraseAt h)
    · exact Nat.le_refl _

theorem cells_finishUpdate_le (q : BucketQueue α n) (u : PendingUpdate α) :
    (q.finishUpdate u).cells ≤ q.cells := by
  unfold finishUpdate
  split
  · exact Nat.le_refl _
  · split
    · rename_i h
      exact Nat.le_trans (cells_add_le _ _) (cells_eraseAt h)
    · exact Nat.le_refl _

omit [DecidableEq α] in
theorem cells_sortWaiting_le (q : BucketQueue α n) (keys : SortKeys α) :
    (q.sortWaiting keys).cells ≤ q.cells := by
  obtain ⟨waiting, sorted⟩ := q
  unfold sortWaiting cells
  simp only [List.length_nil, Nat.zero_add]
  induction waiting generalizing sorted with
  | nil => simp
  | cons a waiting ih =>
    have := ih (Buckets.insert (n + 1) (keys.place a) a sorted)
    have := Buckets.cells_insert_le (n + 1) (keys.place a) a sorted
    simp only [List.foldl_cons, List.length_cons]
    omega

omit [DecidableEq α] in
theorem cells_popFirst {q r : BucketQueue α n} {keys : SortKeys α} {a : α}
    (h : q.popFirst keys = (some a, r)) : r.cells < q.cells := by
  have hsort := cells_sortWaiting_le q keys
  have hpop : Buckets.popFirst (n + 1) (q.sortWaiting keys).sorted = (some a, r.sorted) := by
    have h1 := congrArg Prod.fst h
    have h2 : (⟨[], (Buckets.popFirst (n + 1) (q.sortWaiting keys).sorted).2⟩ :
        BucketQueue α n) = r := congrArg Prod.snd h
    exact Prod.ext h1 (congrArg sorted h2)
  have hw : r.waiting = [] := (congrArg (fun p => p.2.waiting) h).symm
  have := Buckets.cells_popFirst hpop
  simp only [cells, hw, List.length_nil, Nat.zero_add] at *
  omega

/-- Takes items out until none comes. The keys stay the same all the while. -/
def drain (q : BucketQueue α n) (keys : SortKeys α) : List α × BucketQueue α n :=
  match _h : q.popFirst keys with
  | (none, q) => ([], q)
  | (some a, q) =>
    let (rest, q) := q.drain keys
    (a :: rest, q)
termination_by q.cells
decreasing_by exact cells_popFirst _h

end BucketQueue

end Bundler
