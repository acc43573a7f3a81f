import Bundler.Proofs.Actions
import Bundler.Proofs.ExactSizes
/-!
# Plans that keep modules in another order

Two plans may hold the same modules in the same chunks and keep them in different orders. Whatever
merging asks of a plan has one answer for both. Sizes are sums that are cut off at the same size
whatever comes first, and the order of chunks compares names in lower case, so that modules whose
order depends on which came first are not told apart. The two plans also stay alike in a merge.
-/
namespace Bundler

namespace Text

theorem compareNameLists_eq (as bs : List String) : compareNameLists as bs =
    List.compareLex compare (as.map lowerCase) (bs.map lowerCase) := by
  induction as generalizing bs with
  | nil => cases bs <;> rfl
  | cons a as ih =>
    cases bs with
    | nil => rfl
    | cons b bs =>
      rw [compareNameLists, ih, List.map_cons, List.map_cons, List.compareLex_cons_cons]
      rfl

end Text

theorem nameLe_eq (a b : String) :
    nameLe a b = (compare (Text.lowerCase a) (Text.lowerCase b)).isLE := by
  unfold nameLe Text.compareNames
  cases compare (Text.lowerCase a) (Text.lowerCase b) <;> rfl

/-- Sorting leaves those members as they stand among which there is nothing to sort. -/
theorem filter_mergeSort {α : Type} {le : α → α → Bool}
    (htrans : ∀ a b c, le a b = true → le b c = true → le a c = true)
    (htotal : ∀ a b, (le a b || le b a) = true) {p : α → Bool} {xs : List α}
    (h : (xs.filter p).Pairwise fun a b => le a b = true) :
    (xs.mergeSort le).filter p = xs.filter p := by
  have hsub : (xs.filter p).Sublist ((xs.mergeSort le).filter p) := by
    have hkept := (List.sublist_mergeSort htrans htotal h List.filter_sublist).filter p
    rwa [List.filter_filter, funext fun a => Bool.and_self (p a)] at hkept
  exact (hsub.eq_of_length ((List.mergeSort_perm xs le).filter p).length_eq.symm).symm

/-- Sorting strings forgets the order in which they come. -/
theorem mergeSort_perm_eq {xs ys : List String} (h : xs.Perm ys) :
    xs.mergeSort (fun a b => (compare a b).isLE) =
      ys.mergeSort (fun a b => (compare a b).isLE) := by
  have htrans : ∀ a b c : String, (compare a b).isLE = true → (compare b c).isLE = true →
      (compare a c).isLE = true := fun _ _ _ => Std.TransCmp.isLE_trans
  have htotal : ∀ a b : String, ((compare a b).isLE || (compare b a).isLE) = true := by
    intro a b
    have hswap : compare b a = (compare a b).swap := Std.OrientedCmp.eq_swap
    rw [hswap]
    cases compare a b <;> rfl
  have hantisymm : ∀ a b : String, (compare a b).isLE = true → (compare b a).isLE = true →
      a = b := fun _ _ hab hba =>
    Std.LawfulEqCmp.eq_of_compare (Std.OrientedCmp.isLE_antisymm hab hba)
  apply List.Perm.eq_of_pairwise (fun a b _ _ => hantisymm a b)
    (List.pairwise_mergeSort htrans htotal xs) (List.pairwise_mergeSort htrans htotal ys)
  exact (List.mergeSort_perm _ _).trans (h.trans (List.mergeSort_perm _ _).symm)

/-- Sorting modules without regard to capital letters sorts their names in small letters. -/
theorem Placement.map_lowerCase_sortedIds (r : ChunkRecord) :
    (sortedIds r).map Text.lowerCase =
      (r.modules.toList.map Text.lowerCase).mergeSort fun a b => (compare a b).isLE :=
  List.map_mergeSort fun a _ b _ => nameLe_eq a b

/-- Two records of the same modules, perhaps in different orders. -/
structure ChunkRecord.Reordered (r s : ChunkRecord) : Prop where
  modules : ∀ m, m ∈ r.modules ↔ m ∈ s.modules
  entryModules : r.entryModules = s.entryModules
  needs : r.needs = s.needs
  runtimeModules : r.runtimeModules = s.runtimeModules

namespace ChunkRecord.Reordered
variable {r s r' s' : ChunkRecord}

theorem perm (h : r.Reordered s) : r.modules.toList.Perm s.modules.toList :=
  (List.perm_ext_iff_of_nodup r.modules.nodup s.modules.nodup).mpr h.modules

/-- The sorted names of the modules, capital letters aside. -/
theorem lowerCase_sortedIds (h : r.Reordered s) :
    (Placement.sortedIds r).map Text.lowerCase = (Placement.sortedIds s).map Text.lowerCase := by
  rw [Placement.map_lowerCase_sortedIds, Placement.map_lowerCase_sortedIds]
  exact mergeSort_perm_eq (h.perm.map _)

theorem absorb (h : r.Reordered s) (h' : r'.Reordered s') :
    (r.absorb r').Reordered (s.absorb s') where
  modules m := by
    show m ∈ r.modules.insertAll _ ↔ m ∈ s.modules.insertAll _
    rw [OrderedSet.mem_insertAll, OrderedSet.mem_insertAll, h.modules]
    exact or_congr_right (h'.modules m)
  entryModules := by
    unfold ChunkRecord.absorb
    rw [h.entryModules, h'.entryModules]
  needs := h.needs
  runtimeModules := h.runtimeModules

theorem absorb_chunk (h : r.Reordered s) (h' : r'.Reordered s') (A B : Chunk) :
    A.absorb B r r' = A.absorb B s s' := by
  unfold Chunk.absorb
  rw [h.entryModules, h'.entryModules]

end ChunkRecord.Reordered

namespace Placement

/-- A chunk with the names by which it is sorted. -/
def keyed (p : Placement) (k : ChunkKey) : Except GraphError (ChunkKey × List ModuleId) := do
  return (k, sortedIds (← p.require k))

def lowered (x : ChunkKey × List ModuleId) : ChunkKey × List ModuleId :=
  (x.1, x.2.map Text.lowerCase)

/-- The order of chunks by names in lower case. -/
def loweredLe (x y : ChunkKey × List ModuleId) : Bool :=
  (compare y.2.length x.2.length).then (List.compareLex compare x.2 y.2) != .gt

/-- The order of lists of names that puts longer lists first. -/
def longerFirst (xs ys : List String) : Ordering :=
  (compare ys.length xs.length).then (List.compareLex compare xs ys)

theorem compareSorted_eq_longerFirst (xs ys : List ModuleId) : compareSorted xs ys =
    longerFirst (xs.map Text.lowerCase) (ys.map Text.lowerCase) := by
  unfold compareSorted longerFirst
  rw [Text.compareNameLists_eq, List.length_map, List.length_map]

theorem compareSorted_eq (x y : ChunkKey × List ModuleId) :
    (compareSorted x.2 y.2 != .gt) = loweredLe (lowered x) (lowered y) := by
  rw [compareSorted_eq_longerFirst]
  rfl

theorem map_keyed (p : Placement) (k : ChunkKey) : (p.keyed k).map lowered =
    (p.require k >>= fun r => .ok (lowered (k, sortedIds r))) := by
  unfold keyed
  cases p.require k with
  | error e => rfl
  | ok r => rfl

/-- Only the names in lower case count where chunks are sorted. -/
theorem sortChunks_eq (p : Placement) (ks : List ChunkKey) : p.sortChunks ks =
    ((ks.mapM p.keyed).map (List.map lowered)).map fun xs =>
      (xs.mergeSort loweredLe).map Prod.fst := by
  show ks.mapM p.keyed >>= _ = _
  cases ks.mapM p.keyed with
  | error e => rfl
  | ok xs =>
    have hsort := List.map_mergeSort (l := xs) fun x _ y _ => compareSorted_eq x y
    have hkeys := congrArg (List.map Prod.fst) hsort
    rw [List.map_map] at hkeys
    exact congrArg Except.ok hkeys

end Placement

namespace Plan

/-- Two plans with the same chunks and groups over modules of the same sizes, whose chunks hold the
same modules in whatever orders. -/
structure Reordered (p q : Plan) : Prop where
  sizes : ∀ m, (p.modules.get? m).map Module.totalSize = (q.modules.get? m).map Module.totalSize
  chunks : p.chunks = q.chunks
  groups : p.groups = q.groups
  entrypoints : p.entrypoints = q.entrypoints
  supply : p.supply = q.supply
  records : ∀ k, Option.Rel ChunkRecord.Reordered (p.placement.chunks.get? k)
    (q.placement.chunks.get? k)

namespace Reordered
variable {p q : Plan} {k : ChunkKey} {r s : ChunkRecord}

theorem refl (p : Plan) : p.Reordered p where
  sizes _ := rfl
  chunks := rfl
  groups := rfl
  entrypoints := rfl
  supply := rfl
  records k := by
    cases p.placement.chunks.get? k with
    | none => exact .none
    | some r => exact .some ⟨fun _ => Iff.rfl, rfl, rfl, rfl⟩

theorem record (h : p.Reordered q) (hr : p.placement.chunks.get? k = some r) :
    ∃ s, q.placement.chunks.get? k = some s ∧ r.Reordered s := by
  have hrel := h.records k
  rw [hr] at hrel
  cases hs : q.placement.chunks.get? k with
  | none =>
    rw [hs] at hrel
    cases hrel
  | some s =>
    rw [hs] at hrel
    cases hrel with
    | some hrs => exact ⟨s, rfl, hrs⟩

theorem record_none (h : p.Reordered q) (hr : p.placement.chunks.get? k = none) :
    q.placement.chunks.get? k = none := by
  have hrel := h.records k
  rw [hr] at hrel
  cases hs : q.placement.chunks.get? k with
  | none => rfl
  | some s =>
    rw [hs] at hrel
    cases hrel

/-- What is made of a record without regard to the order of modules is the same in both plans. -/
theorem require_bind {β : Type} {φ ψ : ChunkRecord → Except GraphError β} (h : p.Reordered q)
    (k : ChunkKey) (hsame : ∀ {r s}, r.Reordered s → φ r = ψ s) :
    (p.placement.require k >>= φ) = (q.placement.require k >>= ψ) := by
  unfold Placement.require
  cases hr : p.placement.chunks.get? k with
  | none =>
    rw [h.record_none hr]
    rfl
  | some r =>
    obtain ⟨s, hs, hrs⟩ := h.record hr
    rw [hs]
    exact hsame hrs

theorem mem_records (h : p.Reordered q) :
    k ∈ p.placement.chunks.keys ↔ k ∈ q.placement.chunks.keys := by
  rw [← not_iff_not, ← OrderedMap.get?_eq_none, ← OrderedMap.get?_eq_none]
  constructor
  · exact h.record_none
  · intro hs
    cases hr : p.placement.chunks.get? k with
    | none => rfl
    | some r =>
      obtain ⟨s, hs', -⟩ := h.record hr
      rw [hs] at hs'
      cases hs'

/-- The links of a plan are those of its chunks and groups, in whatever order modules are kept. -/
theorem consistent (h : p.Reordered q) (hp : p.Consistent) : q.Consistent where
  key := h.chunks ▸ hp.key
  groupKey := h.groups ▸ hp.groupKey
  record k := by rw [← h.mem_records, ← h.chunks, hp.record]
  link k g := by
    unfold Names Lists
    rw [← h.chunks, ← h.groups]
    exact hp.link k g
  sound := h.groups ▸ hp.sound
  mirror g i := by
    unfold Child Parent
    rw [← h.groups]
    exact hp.mirror g i
  entry := by
    rw [← h.groups, ← h.entrypoints]
    exact hp.entry
  chunkFree := h.chunks ▸ h.supply ▸ hp.chunkFree
  groupFree := h.groups ▸ h.supply ▸ hp.groupFree

theorem totalSize (h : p.Reordered q) {ms ns : List ModuleId} (hperm : ms.Perm ns) :
    p.modules.totalSize ms = q.modules.totalSize ns := by
  unfold ModuleGraph.totalSize
  rw [List.map_filterMap, List.map_filterMap, funext h.sizes]
  exact Size.sum_perm (hperm.filterMap _)

variable (h : p.Reordered q) (model : SizeModel) (a b : Chunk)
include h

theorem hasEntry (k : ChunkKey) : p.placement.hasEntry k = q.placement.hasEntry k :=
  h.require_bind k fun hrs => by rw [hrs.entryModules]

theorem canMerge : p.placement.canMerge p.groups a b = q.placement.canMerge q.groups a b := by
  unfold Placement.canMerge
  rw [h.groups, h.hasEntry, h.hasEntry]

theorem modulesSize (k : ChunkKey) :
    p.placement.modulesSize p.modules k = q.placement.modulesSize q.modules k :=
  h.require_bind k fun hrs => congrArg Except.ok (h.totalSize hrs.perm)

theorem chunkSize : p.placement.chunkSize p.modules p.groups model a =
    q.placement.chunkSize q.modules q.groups model a := by
  unfold Placement.chunkSize
  rw [h.groups, h.modulesSize]

theorem mergedSize : p.placement.mergedSize p.modules p.groups model a b =
    q.placement.mergedSize q.modules q.groups model a b := by
  unfold Placement.mergedSize
  rw [h.groups]
  apply h.require_bind a.key
  intro r s hrs
  apply h.require_bind b.key
  intro r' s' hrs'
  have hsize := h.totalSize (hrs.absorb hrs').perm
  exact congrArg (fun n => Except.ok (model.cost _ n)) hsize

theorem lowered_keyed (k : ChunkKey) : (p.placement.keyed k).map Placement.lowered =
    (q.placement.keyed k).map Placement.lowered := by
  rw [Placement.map_keyed, Placement.map_keyed]
  apply h.require_bind k
  intro r s hrs
  rw [Placement.lowered, Placement.lowered, hrs.lowerCase_sortedIds]

/-- Chunks have one order in both plans: their sorted names differ in capital letters at most. -/
theorem sortChunks (ks : List ChunkKey) :
    p.placement.sortChunks ks = q.placement.sortChunks ks := by
  rw [Placement.sortChunks_eq, Placement.sortChunks_eq, map_mapM, map_mapM, funext h.lowered_keyed]

omit h in
/-- A merge of two chunks is the same in both plans, and leaves them as alike as they were. -/
theorem merge {a b : ChunkKey} {A B : Chunk} (h : p.Reordered q) (hp : p.Consistent)
    (hne : a ≠ b) (hA : p.chunks.get? a = some A) (hB : p.chunks.get? b = some B) :
    ∃ p' q', p.merge a b = (p', .ok ()) ∧ q.merge a b = (q', .ok ()) ∧ p'.Reordered q' := by
  obtain ⟨p', r, s, hmerge, j⟩ := hp.merge_ok hne hA hB
  obtain ⟨q', r', s', hmerge', j'⟩ :=
    (h.consistent hp).merge_ok hne (h.chunks ▸ hA) (h.chunks ▸ hB)
  have hrecord : ∀ {k r r'}, p.placement.chunks.get? k = some r →
      q.placement.chunks.get? k = some r' → r.Reordered r' := by
    intro k r r' hr hr'
    obtain ⟨s, hs, hrs⟩ := h.record hr
    rw [hr'] at hs
    cases hs
    exact hrs
  have htarget : r.Reordered r' := hrecord j.targetRecord j'.targetRecord
  have hsource : s.Reordered s' := hrecord j.sourceRecord j'.sourceRecord
  refine ⟨p', q', hmerge, hmerge', ?_⟩
  refine { sizes := ?_, chunks := ?_, groups := ?_, entrypoints := ?_, supply := ?_,
           records := ?_ }
  · rw [j.modules, j'.modules]
    exact h.sizes
  · apply OrderedMap.ext_get?
    · rw [j.chunkKeys, j'.chunkKeys, h.chunks]
    · intro k
      rw [j.chunk, j'.chunk, h.chunks, htarget.absorb_chunk hsource]
  · apply OrderedMap.ext_get?
    · rw [j.groupKeys, j'.groupKeys, h.groups]
    · intro g
      rw [j.group, j'.group, h.groups]
  · rw [j.entrypoints, j'.entrypoints, h.entrypoints]
  · rw [j.supply, j'.supply, h.supply]
  · intro k
    rw [j.record, j'.record]
    split
    · exact .none
    · split
      · exact .some (htarget.absorb hsource)
      · exact h.records k

end Reordered

end Plan

end Bundler
