import Bundler.Proofs.Additions
import Bundler.Proofs.Merged
import Mathlib.Logic.Function.Basic
/-!
# Where entry modules are

An entry module comes into a chunk with its entrypoint and in no other way, and it decides the name
of a merged chunk. This module says what adding an entrypoint or an on-demand chunk does to the
entry modules of all chunks, and which chunk carries the runtime of a new group.
-/
namespace Bundler

namespace Placement
variable {p q : Placement} {c : ChunkKey}

theorem mergedName_target (name : String) (b : Option String) :
    mergedName true false (some name) b = some name := by
  cases b with
  | none => rfl
  | some b => rfl

theorem mergedName_source (a : Option String) (name : String) :
    mergedName false true a (some name) = some name := by
  cases a with
  | none => rfl
  | some a => rfl

/-- The entry modules of a chunk, none for a chunk without a record. -/
def entries (p : Placement) (k : ChunkKey) : OrderedMap ModuleId GroupKey :=
  (p.chunks.get? k).elim ∅ (·.entryModules)

theorem entries_of_get? {r : ChunkRecord} (hr : p.chunks.get? c = some r) :
    p.entries c = r.entryModules := by
  rw [entries, hr]
  rfl

theorem exists_of_entries {m : ModuleId} {g : GroupKey} (h : (p.entries c).get? m = some g) :
    ∃ r, p.chunks.get? c = some r ∧ r.entryModules.get? m = some g := by
  unfold entries at h
  cases hr : p.chunks.get? c with
  | none =>
    rw [hr] at h
    cases h
  | some r =>
    rw [hr] at h
    exact ⟨r, rfl, h⟩

theorem entries_insert (p : Placement) (c : ChunkKey) (r : ChunkRecord)
    (modules : OrderedMap ModuleId ModuleRecord) :
    entries { chunks := p.chunks.insert c r, modules } =
      Function.update p.entries c r.entryModules := by
  funext k
  rw [entries, OrderedMap.get?_insert]
  by_cases hk : k = c
  · rw [if_pos hk, hk, Function.update_self]
    rfl
  · rw [if_neg hk, Function.update_of_ne hk]
    rfl

theorem entries_addChunk (p : Placement) (c : ChunkKey) : (p.addChunk c).entries = p.entries := by
  unfold addChunk
  split
  · rfl
  · rename_i hc
    have hnone : p.chunks.get? c = none :=
      OrderedMap.get?_eq_none.mpr fun hin => hc (OrderedMap.contains_iff.mpr hin)
    have hempty : p.entries c = ∅ := by
      rw [entries, hnone]
      rfl
    rw [entries_insert, ← hempty, Function.update_eq_self]

theorem entries_connect {m : ModuleId} (h : p.connect c m = .ok q) : q.entries = p.entries := by
  obtain ⟨r, hr, rfl⟩ := update_eq_ok h
  rw [entries_insert, ← entries_of_get? hr, Function.update_eq_self]

theorem entries_connectEntry {m : ModuleId} {g : GroupKey} (h : p.connectEntry c m g = .ok q) :
    q.entries = Function.update p.entries c ((p.entries c).insert m g) := by
  obtain ⟨r, hr, rfl⟩ := update_eq_ok h
  rw [entries_insert, entries_of_get? hr]

end Placement

namespace Plan
variable {p q : Plan} {c : ChunkKey} {g : GroupKey}

/-- The group is loaded by the page itself, and the chunk carries its runtime. -/
def Runtime (p : Plan) (g : GroupKey) (k : ChunkKey) : Prop :=
  ∃ G, p.groups.get? g = some G ∧ G.isInitial = true ∧ G.runtimeChunk = some k

theorem connectEach_entries {p q : Placement} {ms : List ModuleId}
    (h : p.connectEach c ms = (q, .ok ())) : q.entries = p.entries :=
  Placement.connectEach_keeps (P := fun t => t.entries = p.entries)
    (fun _ _ _ ht hu => (Placement.entries_connect hu).trans ht) rfl h

theorem placeEach_entries {ms : List ModuleId} (h : p.placeEach c ms = (q, .ok ())) :
    ∃ placement, q = { p with placement } ∧ placement.entries = p.placement.entries := by
  refine placeEach_keeps (P := fun t => ∃ placement, t = { p with placement } ∧
    placement.entries = p.placement.entries) ?_ ⟨p.placement, rfl, rfl⟩ h
  intro t m u ht hu
  obtain ⟨v, rfl, hv⟩ := ht
  obtain ⟨ids, w, -, hw, rfl⟩ := placeReachable_eq_ok hu
  exact ⟨w, rfl, (connectEach_entries hw).trans hv⟩

/-- What a new entrypoint adds: its group, whose only chunk bears its name, carries its runtime and
holds its entry module. -/
theorem addEntrypoint_root {name : String} {entry : ModuleId}
    (h : p.addEntrypoint name entry = (q, .ok (g, c))) :
    q.entrypoints = p.entrypoints.insert name g ∧ q.Named c name ∧ q.Runtime g c ∧
      q.placement.entries =
        Function.update p.placement.entries c ((p.placement.entries c).insert entry g) := by
  obtain ⟨rfl, rfl, ids, t, placement, ht, -, hplace, rfl⟩ := addEntrypoint_eq_ok h
  refine ⟨rfl, ⟨_, OrderedMap.get?_insert_self .., rfl⟩,
    ⟨_, OrderedMap.get?_insert_self .., rfl, rfl⟩, ?_⟩
  rw [← Placement.entries_addChunk p.placement]
  exact (connectEach_entries hplace).trans (Placement.entries_connectEntry ht)

theorem addAsyncChunk_root {parent : GroupKey} {label : Option String} {ms : List ModuleId}
    (h : p.addAsyncChunk parent label ms = (q, .ok (g, c))) :
    q.entrypoints = p.entrypoints ∧ (∀ k, ¬ q.Runtime g k) ∧
      q.placement.entries = p.placement.entries := by
  obtain ⟨above, -, rfl, rfl, hplace⟩ := addAsyncChunk_eq_ok h
  obtain ⟨w, rfl, hw⟩ := placeEach_entries hplace
  refine ⟨rfl, ?_, hw.trans (Placement.entries_addChunk p.placement _)⟩
  intro k hk
  obtain ⟨G, hG, hinitial, -⟩ := hk
  replace hG : ((p.groups.insert _ _).modify parent _).get? _ = some G := hG
  rw [OrderedMap.get?_modify, OrderedMap.get?_insert_self] at hG
  split at hG
  · cases hG
    cases hinitial
  · cases hG
    cases hinitial

end Plan

end Bundler
