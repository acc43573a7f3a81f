import Bundler.Proofs.Sizes
import Mathlib.Data.List.Nodup
/-!
# One merge of two chunks

Where chunks and groups agree on who lists whom, a merge of two placed chunks gives the survivor the
size that was foretold and leaves all other sizes as they are. Where besides no group lists a chunk
twice and the two chunks share no entry module, it does not matter which of the two survives: the
survivors hold the same, and the groups differ in its key only.
-/
namespace Bundler
open ChunkGroup (renamed redirect)

theorem Placement.mergedName_comm (entryA entryB : Bool) (a b : Option String) :
    mergedName entryA entryB a b = mergedName entryB entryA b a := by
  cases a with
  | none => cases b <;> rfl
  | some a =>
    cases b with
    | none => rfl
    | some b =>
      simp only [mergedName]
      by_cases hentry : entryA = entryB
      · subst hentry
        rw [if_pos rfl, if_pos rfl]
        rcases Nat.lt_trichotomy a.utf8ByteSize b.utf8ByteSize with hlt | heq | hlt
        · rw [if_pos (Nat.ne_of_lt hlt), if_pos hlt, if_pos (Nat.ne_of_gt hlt),
            if_neg (Nat.lt_asymm hlt)]
        · rw [if_neg (not_not_intro heq), if_neg (not_not_intro heq.symm)]
          rcases Std.lt_trichotomy a b with hlt | rfl | hlt
          · rw [if_pos hlt, if_neg (String.lt_asymm hlt)]
          · rfl
          · rw [if_neg (String.lt_asymm hlt), if_pos hlt]
        · rw [if_pos (Nat.ne_of_gt hlt), if_neg (Nat.lt_asymm hlt), if_pos (Nat.ne_of_lt hlt),
            if_pos hlt]
      · rw [if_neg hentry, if_neg (Ne.symm hentry)]
        cases entryA <;> cases entryB <;> first | rfl | exact absurd rfl hentry

namespace ChunkRecord
variable {r t : ChunkRecord} {m : ModuleId}

theorem mem_modules_absorb : m ∈ (r.absorb t).modules ↔ m ∈ (t.absorb r).modules := by
  unfold absorb
  rw [OrderedSet.mem_insertAll, OrderedSet.mem_insertAll]
  exact or_comm

/-- Two records without a common entry module have the same entry modules in either order. -/
theorem get?_entryModules_absorb (hapart : ∀ n ∈ r.entryModules.keys, n ∉ t.entryModules.keys) :
    (r.absorb t).entryModules.get? m = (t.absorb r).entryModules.get? m := by
  unfold absorb
  rw [OrderedMap.get?_foldl_insert_toList, OrderedMap.get?_foldl_insert_toList]
  by_cases hm : m ∈ r.entryModules.keys
  · rw [OrderedMap.get?_eq_none.mpr (hapart m hm), Option.none_or, Option.or_none]
  · rw [OrderedMap.get?_eq_none.mpr hm, Option.none_or, Option.or_none]

end ChunkRecord

namespace ChunkGroup

/-- The group with other keys for its chunks. -/
def rename (f : ChunkKey → ChunkKey) (g : ChunkGroup) : ChunkGroup :=
  { g with
    chunks := g.chunks.map f
    runtimeChunk := g.runtimeChunk.map f
    entryChunk := g.entryChunk.map f }

/-- A group in which `b` has taken the place of `a` and is then called `a` is the one in which `a`
has taken the place of `b`. -/
theorem rename_redirect {a b : ChunkKey} (hne : a ≠ b) (g : ChunkGroup) :
    (g.redirect (renamed a b)).rename (renamed b a) = g.redirect (renamed b a) := by
  have hcomp : renamed b a ∘ renamed a b = renamed b a := by
    funext k
    unfold renamed Function.comp
    by_cases hk : k = a
    · subst hk
      simp [hne]
    · simp [hk]
  have hfree : ∀ k ∈ (g.chunks.map (renamed a b)).eraseDups, k ≠ a := by
    intro k hk heq
    subst heq
    obtain ⟨i, -, hi⟩ := List.mem_map.mp (List.mem_eraseDups.mp hk)
    unfold renamed at hi
    split at hi
    · exact hne hi.symm
    · contradiction
  have hnodup : ((g.chunks.map (renamed a b)).eraseDups.map (renamed b a)).Nodup := by
    refine (nodup_eraseDups _).map_on ?_
    intro i hi j hj hij
    have hia := hfree i hi
    have hja := hfree j hj
    unfold renamed at hij
    split at hij <;> split at hij <;> simp_all
  have hchunks : (g.chunks.map (renamed a b)).eraseDups.map (renamed b a) =
      (g.chunks.map (renamed b a)).eraseDups := by
    rw [← eraseDups_of_nodup hnodup, eraseDups_map_eraseDups, List.map_map, hcomp]
  simp only [rename, redirect, hchunks, Option.map_map, hcomp]

end ChunkGroup

namespace MergeState

/-- The two chunks of a merge are different ones, stored and placed, and the stored chunks and
groups agree on who lists whom. -/
structure Ready (s : MergeState) (cs : Chunks) : Prop where
  ne : s.target.key ≠ s.source.key
  linked : cs.Linked s.groups
  target : cs.get? s.target.key = some s.target
  source : cs.get? s.source.key = some s.source
  targetPlaced : s.target.key ∈ s.placement.chunks.keys
  sourcePlaced : s.source.key ∈ s.placement.chunks.keys

/-- The merge with the source as the survivor. -/
def swap (s : MergeState) : MergeState := { s with target := s.source, source := s.target }

/-- Two results of a merge that differ in the key of the survivor and in nothing else that the merge
decides. -/
structure Alike (u v : MergeState) : Prop where
  name : u.target.name = v.target.name
  hints : u.target.hints = v.target.hints
  runtime : u.target.runtime = v.target.runtime
  memberOf : ∀ g, g ∈ u.target.groups ↔ g ∈ v.target.groups
  record : ∃ r t, u.placement.chunks.get? u.target.key = some r ∧
    v.placement.chunks.get? v.target.key = some t ∧ (∀ m, m ∈ r.modules ↔ m ∈ t.modules) ∧
    ∀ m, r.entryModules.get? m = t.entryModules.get? m
  groupKeys : u.groups.keys = v.groups.keys
  group : ∀ g, u.groups.get? g =
    (v.groups.get? g).map (ChunkGroup.rename (renamed v.target.key u.target.key))

variable {s u : MergeState} {cs : Chunks} {r t : ChunkRecord}

theorem Ready.swap (h : s.Ready cs) : s.swap.Ready cs where
  ne := h.ne.symm
  linked := h.linked
  target := h.source
  source := h.target
  targetPlaced := h.sourcePlaced
  sourcePlaced := h.targetPlaced

theorem Ready.run_ok (h : s.Ready cs) (hr : s.placement.chunks.get? s.target.key = some r)
    (ht : s.placement.chunks.get? s.source.key = some t) :
    ∃ u, s.run = (u, .ok ()) ∧ u.target = s.target.absorb s.source r t ∧
      (∀ k, u.placement.chunks.get? k = if k = s.source.key then none
        else if k = s.target.key then some (r.absorb t) else s.placement.chunks.get? k) ∧
      u.groups.keys = s.groups.keys ∧ ∀ g, u.groups.get? g = (s.groups.get? g).map fun G =>
        if g ∈ s.source.groups then (G.replace s.source.key s.target.key).1 else G := by
  obtain ⟨u, hu, htarget, -, hrecord, hkeys, hgroup⟩ :=
    MergeState.run_ok h.ne hr ht fun g hg => h.linked.stored h.source hg
  exact ⟨u, hu, htarget, hrecord, hkeys, hgroup⟩

/-- A merge succeeds, makes the survivor as large as was foretold, and changes the size of no other
chunk. -/
theorem Ready.run_foretold (h : s.Ready cs) (m : ModuleGraph) (model : SizeModel) :
    ∃ u n, s.run = (u, .ok ()) ∧
      s.placement.mergedSize m s.groups model s.target s.source = .ok n ∧
      u.placement.chunkSize m u.groups model u.target = .ok n ∧
      ∀ c : Chunk, c.key ≠ s.target.key → c.key ≠ s.source.key →
        u.placement.chunkSize m u.groups model c = s.placement.chunkSize m s.groups model c := by
  obtain ⟨r, hr⟩ := OrderedMap.exists_of_mem_keys h.targetPlaced
  obtain ⟨t, ht⟩ := OrderedMap.exists_of_mem_keys h.sourcePlaced
  obtain ⟨u, hu, htarget, hrecord, -, hgroup⟩ := h.run_ok hr ht
  have hinitial : ∀ c : Chunk, c.canBeInitial u.groups = c.canBeInitial s.groups := by
    intro c
    apply Chunk.canBeInitial_congr
    intro g
    rw [hgroup, Option.map_map]
    congr 1
    funext G
    show (if g ∈ s.source.groups then _ else G).isInitial = G.isInitial
    split
    · rfl
    · rfl
  have hsurvivor : u.placement.chunks.get? s.target.key = some (r.absorb t) := by
    rw [hrecord, if_neg h.ne, if_pos rfl]
  refine ⟨u, _, hu, Placement.mergedSize_eq hr ht, ?_, ?_⟩
  · rw [htarget, Placement.chunkSize_absorb hr ht hsurvivor hinitial,
      Placement.mergedSize_eq hr ht]
  · intro c hca hcb
    apply Placement.chunkSize_congr ?_ (hinitial c)
    rw [hrecord, if_neg hcb, if_neg hca]

/-- An entry chunk and a lazy chunk that share a module and an entrypoint. -/
def sharedGroups : MergeState where
  target := { key := ⟨2⟩, name := some "main", groups := .ofList [⟨1⟩] }
  source := { key := ⟨4⟩, name := some "lazy", groups := .ofList [⟨3⟩, ⟨1⟩] }
  placement := {
    chunks := .ofList [
      (⟨2⟩, {
        modules := .ofList ["main.js", "shared.js"], entryModules := .ofList [("main.js", ⟨1⟩)] }),
      (⟨4⟩, { modules := .ofList ["shared.js", "lazy.js"] })]
    modules := .ofList [
      ("main.js", { chunks := .ofList [⟨2⟩], entryIn := .ofList [⟨2⟩] }),
      ("shared.js", { chunks := .ofList [⟨2⟩, ⟨4⟩] }),
      ("lazy.js", { chunks := .ofList [⟨4⟩] })] }
  groups := .ofList [
    (⟨1⟩, {
      key := ⟨1⟩, kind := .entrypoint, chunks := [⟨4⟩, ⟨2⟩]
      runtimeChunk := some ⟨2⟩, entryChunk := some ⟨2⟩ }),
    (⟨3⟩, { key := ⟨3⟩, kind := .normal, chunks := [⟨6⟩, ⟨4⟩], parents := .ofList [⟨1⟩] })]

def sharedChunks : Chunks := .ofList [
  (⟨2⟩, sharedGroups.target), (⟨4⟩, sharedGroups.source),
  (⟨6⟩, { key := ⟨6⟩, groups := .ofList [⟨3⟩] })]

theorem ready_sharedGroups : sharedGroups.Ready sharedChunks where
  ne := by decide
  linked := by decide
  target := rfl
  source := rfl
  targetPlaced := by decide
  sourcePlaced := by decide

def sharedModules : ModuleGraph :=
  (({} : ModuleGraph).add { id := "shared.js", sizes := { javascript := some 3 } }).add
    { id := "lazy.js", sizes := { javascript := some 5, css := some 2 } }

theorem sharedGroups_run_foretold : sharedGroups.Ready sharedChunks ∧
    ∃ u, sharedGroups.run = (u, .ok ()) ∧
      sharedGroups.placement.mergedSize sharedModules sharedGroups.groups {} sharedGroups.target
        sharedGroups.source = .ok 10100 ∧
      u.placement.chunkSize sharedModules u.groups {} u.target = .ok 10100 ∧
      ∀ c : Chunk, c.key ≠ ⟨2⟩ → c.key ≠ ⟨4⟩ → u.placement.chunkSize sharedModules u.groups {} c =
        sharedGroups.placement.chunkSize sharedModules sharedGroups.groups {} c := by
  obtain ⟨u, n, hu, hforetold, hsize, hothers⟩ := ready_sharedGroups.run_foretold sharedModules {}
  have hn : sharedGroups.placement.mergedSize sharedModules sharedGroups.groups {}
      sharedGroups.target sharedGroups.source = .ok 10100 := by decide
  rw [hn] at hforetold
  cases hforetold
  exact ⟨ready_sharedGroups, u, hu, hn, hsize, hothers⟩

/-- After a merge every group is the old one with the survivor in the place of the source. -/
theorem Ready.group_redirect (h : s.Ready cs) (htidy : ∀ G ∈ s.groups.values, G.Tidy)
    (hgroup : ∀ g, u.groups.get? g = (s.groups.get? g).map fun G =>
      if g ∈ s.source.groups then (G.replace s.source.key s.target.key).1 else G) (g : GroupKey) :
    u.groups.get? g = (s.groups.get? g).map (redirect (renamed s.source.key s.target.key)) := by
  rw [hgroup]
  cases hG : s.groups.get? g with
  | none => rfl
  | some G =>
    have hvalue : G ∈ s.groups.values := List.mem_map_of_mem (OrderedMap.mem_of_get? hG)
    exact congrArg some ((htidy G hvalue).ite_replace (h.linked.mem_groups_iff h.source hG))

/-- Merges of two chunks without a common entry module in either order are alike. -/
theorem Ready.run_swap_alike (h : s.Ready cs) (htidy : ∀ G ∈ s.groups.values, G.Tidy)
    (hr : s.placement.chunks.get? s.target.key = some r)
    (ht : s.placement.chunks.get? s.source.key = some t)
    (hapart : ∀ m ∈ r.entryModules.keys, m ∉ t.entryModules.keys) :
    ∃ u v, s.run = (u, .ok ()) ∧ s.swap.run = (v, .ok ()) ∧ u.target.key = s.target.key ∧
      v.target.key = s.source.key ∧ u.Alike v := by
  obtain ⟨u, hu, hutarget, hurecord, hukeys, hugroup⟩ := h.run_ok hr ht
  obtain ⟨v, hv, hvtarget, hvrecord, hvkeys, hvgroup⟩ := h.swap.run_ok ht hr
  have hukey : u.target.key = s.target.key := by
    rw [hutarget]
    rfl
  have hvkey : v.target.key = s.source.key := by
    rw [hvtarget]
    rfl
  refine ⟨u, v, hu, hv, hukey, hvkey, ?_⟩
  exact {
    name := by
      rw [hutarget, hvtarget]
      exact Placement.mergedName_comm ..
    hints := by
      rw [hutarget, hvtarget]
      exact NameSet.union_comm ..
    runtime := by
      rw [hutarget, hvtarget]
      exact NameSet.union_comm ..
    memberOf := by
      intro g
      rw [hutarget, hvtarget]
      show g ∈ s.target.groups.insertAll _ ↔ g ∈ s.source.groups.insertAll _
      rw [OrderedSet.mem_insertAll, OrderedSet.mem_insertAll]
      exact or_comm
    record := by
      refine ⟨r.absorb t, t.absorb r, ?_, ?_, fun m => ChunkRecord.mem_modules_absorb,
        fun m => ChunkRecord.get?_entryModules_absorb hapart⟩
      · rw [hukey, hurecord, if_neg h.ne, if_pos rfl]
      · rw [show v.target.key = s.swap.target.key from hvkey, hvrecord, if_neg h.swap.ne, if_pos rfl]
    groupKeys := hukeys.trans hvkeys.symm
    group := by
      intro g
      rw [hukey, hvkey, h.group_redirect htidy hugroup, h.swap.group_redirect htidy hvgroup,
        Option.map_map]
      congr 1
      funext G
      exact (ChunkGroup.rename_redirect h.ne G).symm }

theorem sharedGroups_run_swap_alike : sharedGroups.Ready sharedChunks ∧
    ∃ u v, sharedGroups.run = (u, .ok ()) ∧ sharedGroups.swap.run = (v, .ok ()) ∧
      u.target.key = ⟨2⟩ ∧ v.target.key = ⟨4⟩ ∧ u.Alike v :=
  ⟨ready_sharedGroups, ready_sharedGroups.run_swap_alike (by decide) rfl rfl (by decide)⟩

end MergeState

end Bundler
