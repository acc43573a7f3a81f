import Bundler.Proofs.Merged
import Bundler.Plan.Limit
/-!
# Sizes before and after a merge

The size of a chunk, the size that a pair would have and whether the pair may be merged, asked for
by keys. In a consistent plan every stored chunk and every pair of stored chunks has an answer. A
merge gives the survivor the size that was foretold for the pair and changes the answers about no
other chunk.
-/
namespace Bundler

namespace Placement
variable {p : Placement} {m : ModuleGraph} {gs : Groups} {model : SizeModel} {a b : Chunk}
  {r s : ChunkRecord}

theorem chunkSize_eq (hr : p.chunks.get? a.key = some r) : p.chunkSize m gs model a =
    .ok (model.cost (a.canBeInitial gs) (m.totalSize r.modules.toList)) := by
  unfold chunkSize modulesSize
  rw [require_eq_ok.mpr hr]
  rfl

theorem mergedSize_eq (hr : p.chunks.get? a.key = some r) (hs : p.chunks.get? b.key = some s) :
    p.mergedSize m gs model a b = .ok (model.cost (a.canBeInitial gs || b.canBeInitial gs)
      (m.totalSize (r.modules.insertAll s.modules.toList).toList)) := by
  unfold mergedSize
  rw [require_eq_ok.mpr hr, require_eq_ok.mpr hs]
  rfl

theorem canMerge_eq (hr : p.chunks.get? a.key = some r) (hs : p.chunks.get? b.key = some s) :
    p.canMerge gs a b = .ok (!(a.pinned || b.pinned) &&
      match a.hasRuntime gs, b.hasRuntime gs with
      | true, false => gs.isAvailable a b
      | false, true => gs.isAvailable b a
      | _, _ => r.entryModules.isEmpty && s.entryModules.isEmpty) := by
  unfold canMerge
  rw [hasEntry_eq hr, hasEntry_eq hs]
  cases a.pinned || b.pinned
  · cases a.hasRuntime gs <;> cases b.hasRuntime gs <;> cases r.entryModules.isEmpty <;>
      cases s.entryModules.isEmpty <;> rfl
  · rfl

/-- Two chunks with records may be merged or not, in either order alike. -/
theorem canMerge_ok (hr : p.chunks.get? a.key = some r) (hs : p.chunks.get? b.key = some s) :
    ∃ may, p.canMerge gs a b = .ok may ∧ p.canMerge gs b a = .ok may := by
  refine ⟨_, canMerge_eq hr hs, ?_⟩
  rw [canMerge_eq hs hr, Bool.or_comm, Bool.and_comm s.entryModules.isEmpty]
  cases a.hasRuntime gs <;> cases b.hasRuntime gs <;> rfl

end Placement

namespace Chunk
variable {c A B : Chunk} {gs hs : Groups}

theorem canBeInitial_iff : c.canBeInitial gs = true ↔
    ∃ g ∈ c.groups, ∃ G, gs.get? g = some G ∧ G.isInitial = true := by
  unfold canBeInitial storedGroups
  rw [List.any_eq_true]
  constructor
  · intro hex
    rcases hex with ⟨G, hG, hinitial⟩
    obtain ⟨g, hg, hG⟩ := List.mem_filterMap.mp hG
    exact ⟨g, hg, G, hG, hinitial⟩
  · intro hex
    rcases hex with ⟨g, hg, G, hG, hinitial⟩
    exact ⟨G, List.mem_filterMap.mpr ⟨g, hg, hG⟩, hinitial⟩

/-- Whether the page loads a chunk depends on no more of the groups than which of them it loads. -/
theorem canBeInitial_congr
    (h : ∀ g, (hs.get? g).map (·.isInitial) = (gs.get? g).map (·.isInitial)) :
    c.canBeInitial hs = c.canBeInitial gs := by
  rw [Bool.eq_iff_iff]
  simp only [canBeInitial_iff, ← Option.map_eq_some_iff, h]

theorem canBeInitial_absorb {r s : ChunkRecord} :
    (A.absorb B r s).canBeInitial gs = (A.canBeInitial gs || B.canBeInitial gs) := by
  rw [Bool.eq_iff_iff, Bool.or_eq_true]
  simp only [canBeInitial_iff]
  constructor
  · intro hex
    rcases hex with ⟨g, hg, hG⟩
    rcases OrderedSet.mem_insertAll.mp hg with hg | hg
    · exact Or.inl ⟨g, hg, hG⟩
    · exact Or.inr ⟨g, hg, hG⟩
  · intro hor
    rcases hor with ⟨g, hg, hG⟩ | ⟨g, hg, hG⟩
    · exact ⟨g, OrderedSet.mem_insertAll.mpr (Or.inl hg), hG⟩
    · exact ⟨g, OrderedSet.mem_insertAll.mpr (Or.inr hg), hG⟩

end Chunk

namespace Placement
variable {p q : Placement} {m : ModuleGraph} {gs hs : Groups} {model : SizeModel} {a b c : Chunk}
  {r t : ChunkRecord}

/-- A chunk with the record and the groups of two is as large as was foretold for the two. -/
theorem chunkSize_absorb (hr : p.chunks.get? a.key = some r) (ht : p.chunks.get? b.key = some t)
    (hrecord : q.chunks.get? a.key = some (r.absorb t))
    (hinitial : ∀ c : Chunk, c.canBeInitial hs = c.canBeInitial gs) :
    q.chunkSize m hs model (a.absorb b r t) = p.mergedSize m gs model a b := by
  rw [chunkSize_eq (a := a.absorb b r t) hrecord, mergedSize_eq hr ht, hinitial,
    Chunk.canBeInitial_absorb]
  rfl

theorem chunkSize_congr (hrecord : q.chunks.get? c.key = p.chunks.get? c.key)
    (hinitial : c.canBeInitial hs = c.canBeInitial gs) :
    q.chunkSize m hs model c = p.chunkSize m gs model c := by
  unfold chunkSize modulesSize require
  rw [hrecord, hinitial]

theorem mergedSize_congr (hrecordA : q.chunks.get? a.key = p.chunks.get? a.key)
    (hrecordB : q.chunks.get? b.key = p.chunks.get? b.key)
    (hinitial : ∀ c : Chunk, c.canBeInitial hs = c.canBeInitial gs) :
    q.mergedSize m hs model a b = p.mergedSize m gs model a b := by
  unfold mergedSize require
  rw [hrecordA, hrecordB, hinitial, hinitial]

end Placement

theorem Chunks.require_eq_ok {cs : Chunks} {k : ChunkKey} {c : Chunk} :
    cs.require k = .ok c ↔ cs.get? k = some c := by
  unfold require
  split <;> simp_all

namespace Plan

def sizeOf (p : Plan) (model : SizeModel) (k : ChunkKey) : Except GraphError Nat := do
  p.placement.chunkSize p.modules p.groups model (← p.chunks.require k)

def mergedSizeOf (p : Plan) (model : SizeModel) (k l : ChunkKey) : Except GraphError Nat := do
  p.placement.mergedSize p.modules p.groups model (← p.chunks.require k) (← p.chunks.require l)

def canMergeKeys (p : Plan) (k l : ChunkKey) : Except GraphError Bool := do
  p.placement.canMerge p.groups (← p.chunks.require k) (← p.chunks.require l)

variable {p q : Plan} {A B c d : Chunk} {r s : ChunkRecord} {k l : ChunkKey} {model : SizeModel}

theorem sizeOf_eq (hc : p.chunks.get? k = some c) :
    p.sizeOf model k = p.placement.chunkSize p.modules p.groups model c := by
  rw [sizeOf, Chunks.require_eq_ok.mpr hc]
  rfl

theorem mergedSizeOf_eq (hc : p.chunks.get? k = some c) (hd : p.chunks.get? l = some d) :
    p.mergedSizeOf model k l = p.placement.mergedSize p.modules p.groups model c d := by
  rw [mergedSizeOf, Chunks.require_eq_ok.mpr hc, Chunks.require_eq_ok.mpr hd]
  rfl

theorem canMergeKeys_eq (hc : p.chunks.get? k = some c) (hd : p.chunks.get? l = some d) :
    p.canMergeKeys k l = p.placement.canMerge p.groups c d := by
  rw [canMergeKeys, Chunks.require_eq_ok.mpr hc, Chunks.require_eq_ok.mpr hd]
  rfl

theorem stored_of_sizeOf {n : Nat} (h : p.sizeOf model k = .ok n) :
    ∃ c, p.chunks.get? k = some c := by
  unfold sizeOf Chunks.require at h
  split at h
  · rename_i c hc
    exact ⟨c, hc⟩
  · cases h

namespace Consistent

theorem record_of_key (h : p.Consistent) (hc : p.chunks.get? k = some c) :
    ∃ r, p.placement.chunks.get? c.key = some r := by
  rw [h.key hc]
  exact h.record_of_chunk hc

theorem sizeOf_ok (h : p.Consistent) (model : SizeModel) (hc : p.chunks.get? k = some c) :
    ∃ n, p.sizeOf model k = .ok n := by
  obtain ⟨r, hr⟩ := h.record_of_key hc
  exact ⟨_, (sizeOf_eq hc).trans (Placement.chunkSize_eq hr)⟩

theorem mergedSizeOf_ok (h : p.Consistent) (model : SizeModel) (hc : p.chunks.get? k = some c)
    (hd : p.chunks.get? l = some d) : ∃ n, p.mergedSizeOf model k l = .ok n := by
  obtain ⟨r, hr⟩ := h.record_of_key hc
  obtain ⟨s, hs⟩ := h.record_of_key hd
  exact ⟨_, (mergedSizeOf_eq hc hd).trans (Placement.mergedSize_eq hr hs)⟩

theorem canMergeKeys_ok (h : p.Consistent) (hc : p.chunks.get? k = some c)
    (hd : p.chunks.get? l = some d) :
    ∃ may, p.canMergeKeys k l = .ok may ∧ p.canMergeKeys l k = .ok may := by
  obtain ⟨r, hr⟩ := h.record_of_key hc
  obtain ⟨s, hs⟩ := h.record_of_key hd
  rw [canMergeKeys_eq hc hd, canMergeKeys_eq hd hc]
  exact Placement.canMerge_ok hr hs

end Consistent

namespace Joined

theorem canBeInitial (j : p.Joined q A B r s) (h : p.Consistent) (c : Chunk) :
    c.canBeInitial q.groups = c.canBeInitial p.groups := by
  apply Chunk.canBeInitial_congr
  intro g
  rw [j.group_redirect h, Option.map_map]
  rfl

theorem record_other (j : p.Joined q A B r s) (ha : k ≠ A.key) (hb : k ≠ B.key) :
    q.placement.chunks.get? k = p.placement.chunks.get? k := by
  rw [j.record, if_neg hb, if_neg ha]

/-- The survivor is as large as was foretold. -/
theorem sizeOf_target (j : p.Joined q A B r s) (h : p.Consistent) (model : SizeModel) :
    q.sizeOf model A.key = p.mergedSizeOf model A.key B.key := by
  have hrecord : q.placement.chunks.get? A.key = some (r.absorb s) := by
    rw [j.record, if_neg j.ne, if_pos rfl]
  rw [sizeOf_eq j.chunk_target, mergedSizeOf_eq j.target j.source, j.modules]
  exact Placement.chunkSize_absorb j.targetRecord j.sourceRecord hrecord (j.canBeInitial h)

theorem sizeOf_other (j : p.Joined q A B r s) (h : p.Consistent) (model : SizeModel)
    (ha : k ≠ A.key) (hb : k ≠ B.key) : q.sizeOf model k = p.sizeOf model k := by
  cases hc : p.chunks.get? k with
  | none =>
    have hc' := (j.chunk_other ha hb).trans hc
    simp only [sizeOf, Chunks.require, hc, hc']
    rfl
  | some c =>
    have hrecord : q.placement.chunks.get? c.key = p.placement.chunks.get? c.key := by
      rw [h.key hc, j.record_other ha hb]
    rw [sizeOf_eq hc, sizeOf_eq ((j.chunk_other ha hb).trans hc), j.modules]
    exact Placement.chunkSize_congr hrecord (j.canBeInitial h c)

theorem mergedSizeOf_other (j : p.Joined q A B r s) (h : p.Consistent) (model : SizeModel)
    (hka : k ≠ A.key) (hkb : k ≠ B.key) (hla : l ≠ A.key) (hlb : l ≠ B.key) :
    q.mergedSizeOf model k l = p.mergedSizeOf model k l := by
  have hk := j.chunk_other hka hkb
  have hl := j.chunk_other hla hlb
  cases hc : p.chunks.get? k with
  | none => simp only [mergedSizeOf, Chunks.require, hk, hc]; rfl
  | some c =>
    cases hd : p.chunks.get? l with
    | none => simp only [mergedSizeOf, Chunks.require, hk, hl, hc, hd]; rfl
    | some d =>
      have hrecordC : q.placement.chunks.get? c.key = p.placement.chunks.get? c.key := by
        rw [h.key hc, j.record_other hka hkb]
      have hrecordD : q.placement.chunks.get? d.key = p.placement.chunks.get? d.key := by
        rw [h.key hd, j.record_other hla hlb]
      rw [mergedSizeOf_eq hc hd, mergedSizeOf_eq (hk.trans hc) (hl.trans hd), j.modules]
      exact Placement.mergedSize_congr hrecordC hrecordD (j.canBeInitial h)

end Joined

end Plan

end Bundler
