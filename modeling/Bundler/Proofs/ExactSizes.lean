import Bundler.Proofs.Sizes
import Mathlib.Algebra.BigOperators.Group.Finset.Basic
import Mathlib.Algebra.GroupWithZero.Nat
/-!
# Sizes that are cut off once

Sizes are cut off whenever two of them are added or multiplied. A cut that was made early is not
seen in the end, because a later sum only grows and a later product only grows unless it is zero. So
what is computed is the exact value, cut off once, and it is of no account which size comes first.
-/
namespace Bundler

namespace Size

theorem cap_cap_add (a b : Nat) : cap (cap a + b) = cap (a + b) := by
  unfold cap
  omega

theorem cap_add_cap (a b : Nat) : cap (a + cap b) = cap (a + b) := by
  unfold cap
  omega

/-- An early cut is not seen in a product: with a weight that is not zero the product is at least as
large as what was cut off. -/
theorem cap_cap_mul (a w : Nat) : cap (cap a * w) = cap (a * w) := by
  unfold cap
  rw [← Nat.mul_min_mul_right]
  rcases Nat.eq_zero_or_pos w with rfl | hw
  · rfl
  · rw [Nat.min_assoc, Nat.min_eq_right (Nat.le_mul_of_pos_right largest hw)]

theorem foldl_add_eq (xs : List Nat) (a : Nat) : xs.foldl add (cap a) = cap (a + xs.sum) := by
  induction xs generalizing a with
  | nil => rfl
  | cons x xs ih =>
    have hhead : add (cap a) x = cap (a + x) := cap_cap_add a x
    rw [List.foldl_cons, hhead, ih, List.sum_cons, Nat.add_assoc]

theorem sum_eq (xs : List Nat) : sum xs = cap xs.sum := by
  have h := foldl_add_eq xs 0
  rwa [Nat.zero_add] at h

theorem sum_perm {xs ys : List Nat} (h : xs.Perm ys) : sum xs = sum ys := by
  rw [sum_eq, sum_eq, h.sum_eq]

theorem cap_sum_map_cap (xs : List Nat) : cap (xs.map cap).sum = cap xs.sum := by
  induction xs with
  | nil => rfl
  | cons x xs ih =>
    rw [List.map_cons, List.sum_cons, List.sum_cons, cap_cap_add, ← cap_add_cap, ih, cap_add_cap]

end Size

theorem sum_filterMap {α : Type} (f : α → Option Nat) (xs : List α) :
    (xs.filterMap f).sum = (xs.map fun x => (f x).getD 0).sum := by
  induction xs with
  | nil => rfl
  | cons x xs ih =>
    rw [List.map_cons, List.sum_cons, ← ih]
    cases hx : f x with
    | none => rw [List.filterMap_cons_none hx, Option.getD_none, Nat.zero_add]
    | some n => rw [List.filterMap_cons_some hx, Option.getD_some, List.sum_cons]

def OrderedSet.toFinset {α : Type} [DecidableEq α] (s : OrderedSet α) : Finset α :=
  s.toList.toFinset

theorem OrderedSet.sum_toFinset {α : Type} [DecidableEq α] (s : OrderedSet α) (f : α → Nat) :
    ∑ a ∈ s.toFinset, f a = (s.toList.map f).sum :=
  List.sum_toFinset f s.nodup

theorem OrderedSet.toFinset_insertAll {α : Type} [DecidableEq α] (s t : OrderedSet α) :
    (s.insertAll t.toList).toFinset = s.toFinset ∪ t.toFinset := by
  ext a
  simp only [toFinset, Finset.mem_union, List.mem_toFinset]
  exact mem_insertAll

/-- The sizes of a module for all kinds of source together. -/
def Module.exactSize (m : Module) : Nat :=
  (SourceKind.all.map fun k => (m.sizes.get? k).getD 0).sum

theorem Module.totalSize_eq (m : Module) : m.totalSize = Size.cap m.exactSize := by
  have hlist : m.sizes.toList.map Prod.snd = SourceKind.all.filterMap m.sizes.get? := by
    rw [SizeTable.toList, List.map_filterMap]
    simp
  rw [totalSize, hlist, Size.sum_eq, sum_filterMap, exactSize]

/-- What a name counts in a graph: the sizes of its module, or nothing if there is none. -/
def ModuleGraph.exactSize (g : ModuleGraph) (id : ModuleId) : Nat :=
  (g.get? id).elim 0 Module.exactSize

theorem ModuleGraph.totalSize_eq (g : ModuleGraph) (ids : List ModuleId) :
    g.totalSize ids = Size.cap (ids.map g.exactSize).sum := by
  have hsizes : (ids.filterMap g.get?).map Module.totalSize =
      ((ids.filterMap g.get?).map Module.exactSize).map Size.cap := by
    rw [List.map_map]
    exact List.map_congr_left fun m _ => m.totalSize_eq
  have hexact : (fun id => ((g.get? id).map Module.exactSize).getD 0) = g.exactSize := by
    funext id
    rw [exactSize]
    cases g.get? id <;> rfl
  rw [totalSize, hsizes, Size.sum_eq, Size.cap_sum_map_cap, List.map_filterMap, sum_filterMap,
    hexact]

/-- What a chunk costs with modules of the size `modules`, not cut off. -/
def SizeModel.exactCost (s : SizeModel) (initial : Bool) (modules : Nat) : Nat :=
  s.overhead.getD 10000 + modules * (if initial then s.initialWeight.getD 10 else 1)

theorem SizeModel.cost_cap (s : SizeModel) (initial : Bool) (modules : Nat) :
    s.cost initial (Size.cap modules) = Size.cap (s.exactCost initial modules) := by
  rw [cost, Size.add, Size.mul, Size.cap_cap_mul, Size.cap_add_cap, exactCost]

namespace Placement
variable {p : Placement} {g : ModuleGraph} {gs : Groups} {s : SizeModel} {a b : Chunk}
  {ra rb : ChunkRecord}

theorem chunkSize_eq_exact (ha : p.chunks.get? a.key = some ra) : p.chunkSize g gs s a =
    .ok (Size.cap (s.exactCost (a.canBeInitial gs)
      (∑ m ∈ ra.modules.toFinset, g.exactSize m))) := by
  rw [chunkSize_eq ha, g.totalSize_eq, s.cost_cap, OrderedSet.sum_toFinset]

theorem mergedSize_eq_exact (ha : p.chunks.get? a.key = some ra)
    (hb : p.chunks.get? b.key = some rb) : p.mergedSize g gs s a b =
    .ok (Size.cap (s.exactCost (a.canBeInitial gs || b.canBeInitial gs)
      (∑ m ∈ ra.modules.toFinset ∪ rb.modules.toFinset, g.exactSize m))) := by
  rw [mergedSize_eq ha hb, g.totalSize_eq, s.cost_cap, ← OrderedSet.sum_toFinset,
    OrderedSet.toFinset_insertAll]

/-- The size of modules in whatever order, of a chunk and of two chunks together is the exact one,
cut off at the largest size. Modules that both chunks hold count once. -/
theorem sizes_exact_cut_off (p : Placement) (g : ModuleGraph) (gs : Groups) (s : SizeModel) :
    (∀ ids : List ModuleId, g.totalSize ids =
      min (2 ^ 64 - 1) ((ids : Multiset ModuleId).map g.exactSize).sum) ∧
    (∀ a : Chunk, p.chunkSize g gs s a = do
      let ra ← p.require a.key
      return min (2 ^ 64 - 1)
        (s.exactCost (a.canBeInitial gs) (∑ m ∈ ra.modules.toFinset, g.exactSize m))) ∧
    ∀ a b : Chunk, p.mergedSize g gs s a b = do
      let ra ← p.require a.key
      let rb ← p.require b.key
      return min (2 ^ 64 - 1) (s.exactCost (a.canBeInitial gs || b.canBeInitial gs)
        (∑ m ∈ ra.modules.toFinset ∪ rb.modules.toFinset, g.exactSize m)) := by
  have hcap : ∀ n, Size.cap n = min (2 ^ 64 - 1) n := fun n => Nat.min_comm n Size.largest
  refine ⟨fun ids => ?_, fun a => ?_, fun a b => ?_⟩
  · rw [g.totalSize_eq, hcap]
    rfl
  · cases ha : p.chunks.get? a.key with
    | none => simp only [chunkSize, modulesSize, require, ha]; rfl
    | some ra =>
      rw [chunkSize_eq_exact ha, hcap, require_eq_ok.mpr ha]
      rfl
  · cases ha : p.chunks.get? a.key with
    | none => simp only [mergedSize, require, ha]; rfl
    | some ra =>
      cases hb : p.chunks.get? b.key with
      | none => simp only [mergedSize, require, ha, hb]; rfl
      | some rb =>
        rw [mergedSize_eq_exact ha hb, hcap, require_eq_ok.mpr ha, require_eq_ok.mpr hb]
        rfl

end Placement

end Bundler
