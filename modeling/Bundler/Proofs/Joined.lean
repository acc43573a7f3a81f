import Bundler.Plan.Basic
import Bundler.Proofs.ChunkGroup
import Bundler.Proofs.OrderedMaps
import Bundler.Proofs.Results
/-!
# What a merge of two chunks does

Merging chunk `B` into chunk `A` leaves a plan in which `A` holds what both held, every group of `B`
has `A` in its place, and `B` is gone from chunks and records; the rest of the plan is as before.
This module says so once, as one relation between the plans before and after, and shows that merging
two stored chunks with records and stored groups always succeeds and stands in this relation.
-/
namespace Bundler

def ChunkRecord.absorb (r s : ChunkRecord) : ChunkRecord :=
  { r with
    modules := r.modules.insertAll s.modules.toList
    entryModules := s.entryModules.toList.foldl (fun t e => t.insert e.1 e.2) r.entryModules }

/-- A chunk that has taken over the labels and the groups of another, by the records of both. -/
def Chunk.absorb (A B : Chunk) (r s : ChunkRecord) : Chunk :=
  { A with
    name := Placement.mergedName (!r.entryModules.isEmpty) (!s.entryModules.isEmpty) A.name B.name
    hints := A.hints.union B.hints
    runtime := A.runtime.union B.runtime
    groups := A.groups.insertAll B.groups.toList }

namespace OrderedMap

variable {β : Type v}

/-- Where the entry of `a` takes over that of `b`, a property that the new entry has from either is
found just where it was, but for the change of key. -/
theorem exists_absorbed {M N : OrderedMap ChunkKey β} {a b : ChunkKey} {x y z : β} {P : β → Prop}
    (hne : a ≠ b) (hx : M.get? a = some x) (hy : M.get? b = some y)
    (hN : ∀ k, N.get? k = if k = b then none else if k = a then some z else M.get? k)
    (hz : P z ↔ P x ∨ P y) {k : ChunkKey} :
    (∃ c, N.get? k = some c ∧ P c) ↔
      ∃ i, (∃ c, M.get? i = some c ∧ P c) ∧ ChunkGroup.renamed b a i = k := by
  unfold ChunkGroup.renamed
  rw [hN]
  constructor
  · intro hex
    rcases hex with ⟨c, hc, hP⟩
    split at hc
    · cases hc
    · rename_i hb
      split at hc
      · rename_i ha
        cases hc
        rcases hz.mp hP with hP | hP
        · exact ⟨a, ⟨x, hx, hP⟩, by rw [if_neg hne, ha]⟩
        · exact ⟨b, ⟨y, hy, hP⟩, by rw [if_pos rfl, ha]⟩
      · exact ⟨k, ⟨c, hc, hP⟩, if_neg hb⟩
  · intro hex
    rcases hex with ⟨i, ⟨c, hc, hP⟩, hi⟩
    split at hi
    · rename_i hib
      rw [hib, hy] at hc
      cases hc
      rw [← hi, if_neg hne, if_pos rfl]
      exact ⟨z, rfl, hz.mpr (Or.inr hP)⟩
    · rename_i hib
      subst hi
      rw [if_neg hib]
      split
      · rename_i hia
        rw [hia, hx] at hc
        cases hc
        exact ⟨z, rfl, hz.mpr (Or.inl hP)⟩
      · exact ⟨c, hc, hP⟩

end OrderedMap

namespace Placement

theorem require_eq_ok {p : Placement} {c : ChunkKey} {r : ChunkRecord} :
    p.require c = .ok r ↔ p.chunks.get? c = some r := by
  unfold require
  split <;> simp_all

theorem update_ok {p : Placement} {c : ChunkKey} {r : ChunkRecord} (m : ModuleId)
    (onChunk : ChunkRecord → ChunkRecord) (onModule : ModuleRecord → ModuleRecord)
    (hr : p.chunks.get? c = some r) :
    ∃ q, p.update c m onChunk onModule = .ok q ∧ q.chunks = p.chunks.insert c (onChunk r) := by
  unfold update
  rw [require_eq_ok.mpr hr]
  exact ⟨_, rfl, rfl⟩

theorem update_eq_ok {p q : Placement} {c : ChunkKey} {m : ModuleId}
    {onChunk : ChunkRecord → ChunkRecord} {onModule : ModuleRecord → ModuleRecord}
    (h : p.update c m onChunk onModule = .ok q) :
    ∃ r, p.chunks.get? c = some r ∧
      q = { chunks := p.chunks.insert c (onChunk r)
            modules := p.modules.insert m (onModule (p.moduleRecord m)) } := by
  obtain ⟨r, hr, h⟩ := exists_of_bind_eq_ok h
  cases h
  exact ⟨r, require_eq_ok.mp hr, rfl⟩

/-- Taking something from `b` and giving it to `a` touches no other record. -/
theorem move_ok {p : Placement} {a b : ChunkKey} {r s : ChunkRecord} (hne : a ≠ b) (m : ModuleId)
    (take give : ChunkRecord → ChunkRecord) (forget note : ModuleRecord → ModuleRecord)
    (hr : p.chunks.get? a = some r) (hs : p.chunks.get? b = some s) :
    ∃ q, (do (← p.update b m take forget).update a m give note) = .ok q ∧
      q.chunks.keys = p.chunks.keys ∧ ∀ k, q.chunks.get? k =
        if k = a then some (give r) else if k = b then some (take s) else p.chunks.get? k := by
  obtain ⟨q, hq, hqc⟩ := update_ok m take forget hs
  have hra : q.chunks.get? a = some r := by
    rw [hqc, OrderedMap.get?_insert, if_neg hne, hr]
  obtain ⟨t, ht, htc⟩ := update_ok m give note hra
  refine ⟨t, ?_, ?_, ?_⟩
  · rw [hq]
    exact ht
  · rw [htc, OrderedMap.keys_insert_of_mem (OrderedMap.mem_keys_of_get? hra), hqc,
      OrderedMap.keys_insert_of_mem (OrderedMap.mem_keys_of_get? hs)]
  · intro k
    rw [htc, OrderedMap.get?_insert, hqc, OrderedMap.get?_insert]

theorem foldlM_move_ok {ι : Type} {p : Placement} {a b : ChunkKey} {r s : ChunkRecord}
    (hne : a ≠ b) (name : ι → ModuleId) (take give : ι → ChunkRecord → ChunkRecord)
    (forget note : ModuleRecord → ModuleRecord) (xs : List ι) (hr : p.chunks.get? a = some r)
    (hs : p.chunks.get? b = some s) :
    ∃ q, xs.foldlM (fun p x => do
        (← p.update b (name x) (take x) forget).update a (name x) (give x) note) p = .ok q ∧
      q.chunks.keys = p.chunks.keys ∧ (∃ s', q.chunks.get? b = some s') ∧
      ∀ k, k ≠ b → q.chunks.get? k =
        if k = a then some (xs.foldl (fun r x => give x r) r) else p.chunks.get? k := by
  induction xs generalizing p r s with
  | nil =>
    refine ⟨p, rfl, rfl, ⟨s, hs⟩, fun k _ => ?_⟩
    by_cases hk : k = a
    · rw [if_pos hk, hk, hr]
      rfl
    · rw [if_neg hk]
  | cons x xs ih =>
    obtain ⟨t, ht, hkeys, hget⟩ := move_ok hne (name x) (take x) (give x) forget note hr hs
    have hta := hget a
    have htb := hget b
    rw [if_pos rfl] at hta
    rw [if_neg hne.symm, if_pos rfl] at htb
    obtain ⟨q, hq, hqkeys, hqb, hqget⟩ := ih hta htb
    refine ⟨q, ?_, hqkeys.trans hkeys, hqb, fun k hk => ?_⟩
    · rw [List.foldlM_cons, ht]
      exact hq
    · rw [hqget k hk, hget k]
      by_cases hka : k = a
      · rw [if_pos hka, if_pos hka, List.foldl_cons]
      · rw [if_neg hka, if_neg hka, if_neg hk, if_neg hka]

theorem foldl_insert_modules (r : ChunkRecord) (ms : List ModuleId) :
    ms.foldl (fun r m => { r with modules := r.modules.insert m }) r =
      { r with modules := r.modules.insertAll ms } := by
  induction ms generalizing r with
  | nil => rfl
  | cons m ms ih => exact ih _

theorem foldl_insert_entries (r : ChunkRecord) (es : List (ModuleId × GroupKey)) :
    es.foldl (fun r e => { r with entryModules := r.entryModules.insert e.1 e.2 }) r =
      { r with entryModules := es.foldl (fun t e => t.insert e.1 e.2) r.entryModules } := by
  induction es generalizing r with
  | nil => rfl
  | cons e es ih => exact ih _

theorem moveModules_ok {p : Placement} {a b : ChunkKey} {r s : ChunkRecord} (hne : a ≠ b)
    (ms : List ModuleId) (hr : p.chunks.get? a = some r) (hs : p.chunks.get? b = some s) :
    ∃ q, p.moveModules a b ms = .ok q ∧ q.chunks.keys = p.chunks.keys ∧
      (∃ s', q.chunks.get? b = some s') ∧ ∀ k, k ≠ b → q.chunks.get? k =
        if k = a then some { r with modules := r.modules.insertAll ms } else p.chunks.get? k := by
  rw [← foldl_insert_modules]
  exact foldlM_move_ok hne id (fun m r => { r with modules := r.modules.erase m })
    (fun m r => { r with modules := r.modules.insert m }) _ _ ms hr hs

theorem moveEntries_ok {p : Placement} {a b : ChunkKey} {r s : ChunkRecord} (hne : a ≠ b)
    (es : List (ModuleId × GroupKey)) (hr : p.chunks.get? a = some r)
    (hs : p.chunks.get? b = some s) :
    ∃ q, p.moveEntries a b es = .ok q ∧ q.chunks.keys = p.chunks.keys ∧
      (∃ s', q.chunks.get? b = some s') ∧ ∀ k, k ≠ b → q.chunks.get? k =
        if k = a then
          some { r with entryModules := es.foldl (fun t e => t.insert e.1 e.2) r.entryModules }
        else p.chunks.get? k := by
  rw [← foldl_insert_entries]
  exact foldlM_move_ok hne Prod.fst (fun e r => { r with entryModules := r.entryModules.erase e.1 })
    (fun e r => { r with entryModules := r.entryModules.insert e.1 e.2 }) _ _ es hr hs

theorem chunks_removeChunk {p : Placement} {c : ChunkKey} {r : ChunkRecord}
    (hr : p.chunks.get? c = some r) : (p.removeChunk c).chunks = p.chunks.erase c := by
  unfold removeChunk
  rw [hr]

theorem hasEntry_eq {p : Placement} {c : ChunkKey} {r : ChunkRecord}
    (hr : p.chunks.get? c = some r) : p.hasEntry c = .ok (!r.entryModules.isEmpty) := by
  rw [hasEntry, require_eq_ok.mpr hr]
  rfl

end Placement

namespace MergeState

/-- The chunk records after modules and entry modules have been moved. -/
theorem moveModules_ok {s : MergeState} {r t : ChunkRecord} (hne : s.target.key ≠ s.source.key)
    (hr : s.placement.chunks.get? s.target.key = some r)
    (ht : s.placement.chunks.get? s.source.key = some t) :
    ∃ q, s.moveModules = .ok { s with placement := q } ∧
      q.chunks.keys = s.placement.chunks.keys ∧ (∃ t', q.chunks.get? s.source.key = some t') ∧
      ∀ k, k ≠ s.source.key → q.chunks.get? k =
        if k = s.target.key then some (r.absorb t) else s.placement.chunks.get? k := by
  obtain ⟨p, hp, hpkeys, ⟨u, hu⟩, hpget⟩ :=
    Placement.moveModules_ok hne t.modules.toList hr ht
  have hpa := hpget s.target.key hne
  rw [if_pos rfl] at hpa
  obtain ⟨q, hq, hqkeys, hqb, hqget⟩ :=
    Placement.moveEntries_ok hne t.entryModules.toList hpa hu
  refine ⟨q, ?_, hqkeys.trans hpkeys, hqb, fun k hk => ?_⟩
  · rw [moveModules, Placement.require_eq_ok.mpr ht]
    show (s.placement.moveModules s.target.key s.source.key t.modules.toList >>= _) = _
    rw [hp]
    show (p.moveEntries s.target.key s.source.key t.entryModules.toList >>= _) = _
    rw [hq]
    rfl
  · rw [hqget k hk, hpget k hk]
    by_cases hka : k = s.target.key
    · rw [if_pos hka, if_pos hka]
      rfl
    · rw [if_neg hka, if_neg hka, if_neg hka]

theorem moveGroups_ok {s : MergeState} {gs : List GroupKey} (hnodup : gs.Nodup)
    (hstored : ∀ g ∈ gs, g ∈ s.groups.keys) :
    ∃ t, s.moveGroups gs = (t, .ok ()) ∧
      t.target = { s.target with groups := s.target.groups.insertAll gs } ∧
      t.source.key = s.source.key ∧ t.placement = s.placement ∧
      t.groups.keys = s.groups.keys ∧ ∀ g, t.groups.get? g = (s.groups.get? g).map fun G =>
        if g ∈ gs then (G.replace s.source.key s.target.key).1 else G := by
  induction gs generalizing s with
  | nil => exact ⟨s, rfl, rfl, rfl, rfl, rfl, by simp⟩
  | cons g gs ih =>
    obtain ⟨hg, hgs⟩ := List.nodup_cons.mp hnodup
    have hin := hstored g List.mem_cons_self
    obtain ⟨G, hG⟩ := OrderedMap.exists_of_mem_keys hin
    let u : MergeState := { s with
      target := s.target.addGroup g
      source := s.source.removeGroup g
      groups := s.groups.insert g (G.replace s.source.key s.target.key).1 }
    have hu : s.moveGroup g = (u, .ok ()) := by
      rw [moveGroup, hG]
    have hukeys : u.groups.keys = s.groups.keys := OrderedMap.keys_insert_of_mem hin _
    obtain ⟨t, ht, htarget, hsource, hplacement, hkeys, hget⟩ := ih (s := u) hgs
      fun h hh => hukeys ▸ hstored h (List.mem_cons_of_mem _ hh)
    refine ⟨t, ?_, htarget, hsource, hplacement, hkeys.trans hukeys, fun h => ?_⟩
    · rw [moveGroups, hu]
      exact ht
    · rw [hget, OrderedMap.get?_insert]
      by_cases hh : h = g
      · subst hh
        simp [hG, hg]
      · simp [hh, u, Chunk.addGroup, Chunk.removeGroup]

theorem run_ok {s : MergeState} {r t : ChunkRecord} (hne : s.target.key ≠ s.source.key)
    (hr : s.placement.chunks.get? s.target.key = some r)
    (ht : s.placement.chunks.get? s.source.key = some t)
    (hstored : ∀ g ∈ s.source.groups, g ∈ s.groups.keys) :
    ∃ u, s.run = (u, .ok ()) ∧ u.target = s.target.absorb s.source r t ∧
      u.placement.chunks.keys = s.placement.chunks.keys.filter (· ≠ s.source.key) ∧
      (∀ k, u.placement.chunks.get? k = if k = s.source.key then none
        else if k = s.target.key then some (r.absorb t) else s.placement.chunks.get? k) ∧
      u.groups.keys = s.groups.keys ∧ ∀ g, u.groups.get? g = (s.groups.get? g).map fun G =>
        if g ∈ s.source.groups then (G.replace s.source.key s.target.key).1 else G := by
  obtain ⟨q, hq, hqkeys, ⟨t', ht'⟩, hqget⟩ := moveModules_ok
    (s := s.joinLabels (!r.entryModules.isEmpty) (!t.entryModules.isEmpty)) hne hr ht
  obtain ⟨w, hw, htarget, hsource, hplacement, hkeys, hget⟩ := moveGroups_ok
    (s := { s.joinLabels (!r.entryModules.isEmpty) (!t.entryModules.isEmpty) with
      placement := q }) s.source.groups.nodup hstored
  have herase : (w.placement.removeChunk w.source.key).chunks = q.chunks.erase s.source.key := by
    rw [hplacement, hsource]
    exact Placement.chunks_removeChunk ht'
  refine ⟨{ w with placement := w.placement.removeChunk w.source.key }, ?_, htarget, ?_, ?_, hkeys,
    hget⟩
  · rw [run, Placement.hasEntry_eq hr, Placement.hasEntry_eq ht]
    simp only [bind, Except.bind, pure, Except.pure, hq]
    rw [show (s.joinLabels (!r.entryModules.isEmpty) (!t.entryModules.isEmpty)).source.groups =
      s.source.groups from rfl, hw]
  · show (w.placement.removeChunk w.source.key).chunks.keys = _
    rw [herase, OrderedMap.keys_erase, hqkeys]
    rfl
  · intro k
    show (w.placement.removeChunk w.source.key).chunks.get? k = _
    rw [herase, OrderedMap.get?_erase]
    by_cases hk : k = s.source.key
    · rw [if_pos hk, if_pos hk]
    · rw [if_neg hk, if_neg hk]
      exact hqget k hk

end MergeState

/-- The plan `q` is the plan `p` after chunk `B`, with record `s`, has been merged into chunk `A`,
with record `r`. -/
structure Plan.Joined (p q : Plan) (A B : Chunk) (r s : ChunkRecord) : Prop where
  ne : A.key ≠ B.key
  target : p.chunks.get? A.key = some A
  source : p.chunks.get? B.key = some B
  targetRecord : p.placement.chunks.get? A.key = some r
  sourceRecord : p.placement.chunks.get? B.key = some s
  modules : q.modules = p.modules
  entrypoints : q.entrypoints = p.entrypoints
  supply : q.supply = p.supply
  chunkKeys : q.chunks.keys = p.chunks.keys.filter (· ≠ B.key)
  chunk : ∀ k, q.chunks.get? k =
    if k = B.key then none else if k = A.key then some (A.absorb B r s) else p.chunks.get? k
  recordKeys : q.placement.chunks.keys = p.placement.chunks.keys.filter (· ≠ B.key)
  record : ∀ k, q.placement.chunks.get? k =
    if k = B.key then none else if k = A.key then some (r.absorb s) else p.placement.chunks.get? k
  groupKeys : q.groups.keys = p.groups.keys
  group : ∀ g, q.groups.get? g = (p.groups.get? g).map fun G =>
    if g ∈ B.groups then (G.replace B.key A.key).1 else G

theorem Plan.merge_ok {p : Plan} {A B : Chunk} {r s : ChunkRecord} (hne : A.key ≠ B.key)
    (hA : p.chunks.get? A.key = some A) (hB : p.chunks.get? B.key = some B)
    (hr : p.placement.chunks.get? A.key = some r) (hs : p.placement.chunks.get? B.key = some s)
    (hstored : ∀ g ∈ B.groups, g ∈ p.groups.keys) :
    ∃ q, p.merge A.key B.key = (q, .ok ()) ∧ p.Joined q A B r s := by
  obtain ⟨u, hu, htarget, hkeys, hget, hgroupKeys, hgroups⟩ :=
    MergeState.run_ok (s := ⟨A, B, p.placement, p.groups⟩) hne hr hs hstored
  have hA' : (p.chunks.erase B.key).get? A.key = some A := by
    rw [OrderedMap.get?_erase, if_neg hne, hA]
  refine ⟨{ p with
    chunks := (p.chunks.erase B.key).insert A.key u.target
    placement := u.placement
    groups := u.groups }, ?_, ?_⟩
  · simp only [merge, hB, hA', hu]
  · refine ⟨hne, hA, hB, hr, hs, rfl, rfl, rfl, ?_, ?_, hkeys, hget, hgroupKeys, hgroups⟩
    · show ((p.chunks.erase B.key).insert A.key u.target).keys = _
      rw [OrderedMap.keys_insert_of_mem (OrderedMap.mem_keys_of_get? hA'), OrderedMap.keys_erase]
    · intro k
      show ((p.chunks.erase B.key).insert A.key u.target).get? k = _
      rw [OrderedMap.get?_insert, OrderedMap.get?_erase, htarget]
      by_cases hk : k = B.key
      · rw [if_neg fun h : k = A.key => hne (h.symm.trans hk), if_pos hk, if_pos hk]
      · by_cases hka : k = A.key
        · rw [if_pos hka, if_neg hk, if_pos hka]
        · rw [if_neg hka, if_neg hk, if_neg hk, if_neg hka]

end Bundler
