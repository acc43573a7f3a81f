import Bundler.Proofs.Actions
import Bundler.Proofs.Detachable
/-!
# What a removal leaves behind

Removing a chunk takes it out of the stored chunks, the records of chunks and modules and the lists
of groups, and changes nothing else of the plan. The two roles that a group gives to chunks are
among what stays, so that a chunk is forgotten just if it had none: the chunk that an entrypoint
starts with is still named by its group.
-/
namespace Bundler

namespace OrderedMap
variable {κ : Type u} {β : Type v} [DecidableEq κ] {f : β → β}

theorem keys_foldl_modify (m : OrderedMap κ β) (ks : List κ) :
    (ks.foldl (fun t k => t.modify k f) m).keys = m.keys := by
  induction ks generalizing m with
  | nil => rfl
  | cons k ks ih => rw [List.foldl_cons, ih, keys_modify]

theorem get?_foldl_modify {ks : List κ} (h : ks.Nodup) (m : OrderedMap κ β) (i : κ) :
    (ks.foldl (fun t k => t.modify k f) m).get? i =
      (m.get? i).map fun b => if i ∈ ks then f b else b := by
  induction ks generalizing m with
  | nil => simp
  | cons k ks ih =>
    obtain ⟨hk, hks⟩ := List.nodup_cons.mp h
    rw [List.foldl_cons, ih hks, get?_modify]
    by_cases hi : i = k
    · subst hi
      simp [hk, Function.comp_def]
    · simp [hi]

end OrderedMap

namespace Placement
variable {s t : Placement} {k : ChunkKey} {r : ChunkRecord}

/-- The placement `t` is the placement `s` without the record of the chunk `k`, and the two sides of
each agree. -/
structure Forgot (s t : Placement) (k : ChunkKey) : Prop where
  keys : t.chunks.keys = s.chunks.keys.filter (· ≠ k)
  record : ∀ i, t.chunks.get? i = if i = k then none else s.chunks.get? i
  before : s.Paired
  after : t.Paired

/-- As both sides agree, the notes on modules follow from the records. -/
theorem Forgot.noted_iff (f : s.Forgot t k) (m : ModuleId) (bond : Bond) (i : ChunkKey) :
    i ∈ (t.moduleRecord m).named bond ↔ i ∈ (s.moduleRecord m).named bond ∧ i ≠ k := by
  rw [← f.after bond i m, ← f.before bond i m, namedIn, f.record]
  by_cases hi : i = k
  · simp [hi]
  · simp [hi, namedIn]

theorem Paired.forgot_self (h : s.Paired) (hk : k ∉ s.chunks.keys) : s.Forgot s k where
  keys := by
    refine (List.filter_eq_self.mpr ?_).symm
    exact fun i hi => decide_eq_true fun heq => hk (heq ▸ hi)
  record i := by
    split
    · rename_i hi
      rw [hi, OrderedMap.get?_eq_none.mpr hk]
    · rfl
  before := h
  after := h

theorem Paired.forgot_removeChunk (h : s.Paired) (hr : s.chunks.get? k = some r) :
    ∃ t, s.clearModules k = .ok t ∧ s.Forgot (t.removeChunk k) k := by
  obtain ⟨t, ht, hchunks⟩ : ∃ t, s.clearModules k = .ok t ∧
      t.chunks = s.chunks.insert k { r with modules := ∅ } := by
    rw [Placement.clearModules, require_eq_ok.mpr hr]
    exact ⟨_, rfl, rfl⟩
  have herase : (t.removeChunk k).chunks = t.chunks.erase k := by
    apply chunks_removeChunk
    rw [hchunks, OrderedMap.get?_insert_self]
  refine ⟨t, ht, { keys := ?_, record := ?_, before := h,
                   after := (h.clearModules ht).removeChunk k }⟩
  · rw [herase, OrderedMap.keys_erase, hchunks,
      OrderedMap.keys_insert_of_mem (OrderedMap.mem_keys_of_get? hr)]
  · intro i
    rw [herase, OrderedMap.get?_erase, hchunks, OrderedMap.get?_insert]
    by_cases hi : i = k
    · rw [if_pos hi, if_pos hi]
    · rw [if_neg hi, if_neg hi, if_neg hi]

end Placement

namespace Plan

/-- The plan `q` is the plan `p` without the chunk `k`, which keeps its roles in groups. -/
structure Removed (p q : Plan) (k : ChunkKey) : Prop where
  modules : q.modules = p.modules
  entrypoints : q.entrypoints = p.entrypoints
  supply : q.supply = p.supply
  chunks : q.chunks = p.chunks.erase k
  recordKeys : q.placement.chunks.keys = p.placement.chunks.keys.filter (· ≠ k)
  record : ∀ i, q.placement.chunks.get? i = if i = k then none else p.placement.chunks.get? i
  noted : ∀ m bond i, i ∈ (q.placement.moduleRecord m).named bond ↔
    i ∈ (p.placement.moduleRecord m).named bond ∧ i ≠ k
  groupKeys : q.groups.keys = p.groups.keys
  group : ∀ g, q.groups.get? g = (p.groups.get? g).map fun G => (G.remove k).1

/-- What may refer to a chunk. -/
inductive Mentions (p : Plan) (k : ChunkKey) : Prop where
  | stored (h : k ∈ p.chunks.keys)
  | placed (h : k ∈ p.placement.chunks.keys)
  | noted (m : ModuleId) (bond : Bond) (h : k ∈ (p.placement.moduleRecord m).named bond)
  | listed (G : ChunkGroup) (hG : G ∈ p.groups.values) (h : k ∈ G.chunks)
  | role (G : ChunkGroup) (hG : G ∈ p.groups.values)
      (h : G.runtimeChunk = some k ∨ G.entryChunk = some k)

/-- Some group has the chunk as its runtime chunk or as the chunk that it starts with. -/
def HasRole (p : Plan) (k : ChunkKey) : Prop :=
  ∃ G ∈ p.groups.values, G.runtimeChunk = some k ∨ G.entryChunk = some k

instance (p : Plan) (k : ChunkKey) : Decidable (p.HasRole k) :=
  inferInstanceAs (Decidable (∃ G ∈ p.groups.values,
    G.runtimeChunk = some k ∨ G.entryChunk = some k))

variable {p q : Plan} {k : ChunkKey} {C : Chunk}

namespace Detachable

/-- Detaching a chunk takes it out of every list, for no other group has it. -/
theorem get?_detach (h : p.Detachable) (hC : p.chunks.get? k = some C) (g : GroupKey) :
    (C.detach p.groups).2.get? g = (p.groups.get? g).map fun G => (G.remove k).1 := by
  rw [← h.key k C hC]
  refine (OrderedMap.get?_foldl_modify C.groups.nodup p.groups g).trans ?_
  cases hG : p.groups.get? g with
  | none => rfl
  | some G =>
    refine congrArg some ?_
    split
    · rfl
    · rename_i hg
      have hfree : C.key ∉ G.chunks := fun hin =>
        hg (h.names g G hG C.key hin C ((h.key k C hC).symm ▸ hC))
      show G = { G with chunks := G.chunks.erase C.key }
      rw [List.erase_of_not_mem hfree]

theorem keys_detach (C : Chunk) (gs : Groups) : (C.detach gs).2.keys = gs.keys :=
  OrderedMap.keys_foldl_modify gs C.groups.toList

/-- A stored chunk can be removed. -/
theorem removeChunk_ok (h : p.Detachable) (hC : p.chunks.get? k = some C) :
    ∃ q, p.removeChunk k = .ok (q, some { C with groups := ∅ }) ∧ p.Removed q k ∧
      q.placement.Paired := by
  have hplan : ∀ t, p.placement.Forgot t k → p.Removed { p with
      chunks := p.chunks.erase k, placement := t, groups := (C.detach p.groups).2 } k := by
    intro t f
    exact { modules := rfl, entrypoints := rfl, supply := rfl, chunks := rfl,
            recordKeys := f.keys, record := f.record, noted := f.noted_iff,
            groupKeys := keys_detach C p.groups, group := h.get?_detach hC }
  unfold removeChunk
  rw [hC]
  dsimp only
  cases hr : p.placement.chunks.get? k with
  | none =>
    have hfree := OrderedMap.get?_eq_none.mp hr
    have hcontains : ¬ p.placement.contains k = true :=
      fun hin => hfree (OrderedMap.contains_iff.mp hin)
    have f := h.paired.forgot_self hfree
    refine ⟨_, ?_, hplan _ f, f.after⟩
    rw [if_neg hcontains]
    rfl
  | some r =>
    have hcontains : p.placement.contains k = true :=
      OrderedMap.contains_iff.mpr (OrderedMap.mem_keys_of_get? hr)
    obtain ⟨t, ht, f⟩ := h.paired.forgot_removeChunk hr
    refine ⟨_, ?_, hplan _ f, f.after⟩
    rw [← h.key k C hC] at ht
    rw [if_pos hcontains, Placement.disconnectChunk, ht]
    rfl

theorem removed (h : p.Detachable) (r : p.Removed q k) (hpaired : q.placement.Paired) :
    q.Detachable := by
  refine h.narrow ?_ ?_ hpaired r.supply
  · intro i c hc
    rw [r.chunks] at hc
    exact ⟨c, OrderedMap.get?_of_get?_erase hc, rfl, fun g hg => hg⟩
  · intro g H hH
    rw [r.group] at hH
    obtain ⟨G, hG, rfl⟩ := Option.map_eq_some_iff.mp hH
    exact ⟨G, hG, List.erase_sublist⟩

/-- What still refers to a chunk that has been removed is the roles that it had. -/
theorem mentions_iff (h : p.Detachable) (r : p.Removed q k) : q.Mentions k ↔ p.HasRole k := by
  have hvalue : ∀ H, H ∈ q.groups.values ↔ ∃ G ∈ p.groups.values, H = (G.remove k).1 := by
    intro H
    constructor
    · intro hH
      obtain ⟨g, hg⟩ := OrderedMap.exists_of_mem_values hH
      rw [r.group] at hg
      obtain ⟨G, hG, rfl⟩ := Option.map_eq_some_iff.mp hg
      exact ⟨G, List.mem_map_of_mem (OrderedMap.mem_of_get? hG), rfl⟩
    · intro hex
      obtain ⟨G, hG, rfl⟩ := hex
      obtain ⟨g, hg⟩ := OrderedMap.exists_of_mem_values hG
      have hq : q.groups.get? g = some (G.remove k).1 := by
        rw [r.group, hg]
        rfl
      exact List.mem_map_of_mem (OrderedMap.mem_of_get? hq)
  constructor
  · intro hmentions
    cases hmentions with
    | stored hk =>
      rw [r.chunks, OrderedMap.keys_erase] at hk
      simp at hk
    | placed hk =>
      rw [r.recordKeys] at hk
      simp at hk
    | noted m bond hk => exact absurd rfl ((r.noted m bond k).mp hk).2
    | listed H hH hk =>
      obtain ⟨G, hG, rfl⟩ := (hvalue H).mp hH
      obtain ⟨g, hg⟩ := OrderedMap.exists_of_mem_values hG
      exact absurd hk (h.nodup g G hg).not_mem_erase
    | role H hH hk =>
      obtain ⟨G, hG, rfl⟩ := (hvalue H).mp hH
      exact ⟨G, hG, hk⟩
  · intro hrole
    obtain ⟨G, hG, hk⟩ := hrole
    exact .role _ ((hvalue _).mpr ⟨G, hG, rfl⟩) hk

theorem perform (h : p.Detachable) (a : Action) : (p.perform a).1.Detachable := by
  cases a with
  | setModules modules => exact { h with }
  | addEntrypoint name entry =>
    obtain ⟨q, g, c, hadd⟩ := p.exists_addEntrypoint name entry
    rw [Plan.perform, hadd]
    exact h.addEntrypoint hadd
  | addAsyncChunk parent name ms =>
    rw [Plan.perform]
    rcases p.addAsyncChunk_cases parent name ms with hrefused | ⟨q, g, c, hadd⟩
    · rw [hrefused]
      exact h
    · rw [hadd]
      exact h.addAsyncChunk hadd
  | pin k => exact h.pin k
  | pass l => exact h.pass l

end Detachable

/-- An action, or the removal of a chunk. -/
inductive Change where
  | action (a : Action)
  | remove (k : ChunkKey)

def change (p : Plan) : Change → Plan
  | .action a => (p.perform a).1
  | .remove k =>
    match p.removeChunk k with
    | .ok (q, _) => q
    | .error _ => p

def changeAll (p : Plan) (changes : List Change) : Plan := changes.foldl change p

theorem Detachable.change (h : p.Detachable) (x : Change) : (p.change x).Detachable := by
  cases x with
  | action a => exact h.perform a
  | remove k =>
    cases hC : p.chunks.get? k with
    | none =>
      rw [Plan.change, removeChunk, hC]
      exact h
    | some C =>
      obtain ⟨q, hq, r, hpaired⟩ := h.removeChunk_ok hC
      rw [Plan.change, hq]
      exact h.removed r hpaired

theorem Detachable.changeAll (h : p.Detachable) (changes : List Change) :
    (p.changeAll changes).Detachable := by
  induction changes generalizing p with
  | nil => exact h
  | cons x changes ih => exact ih (h.change x)

/-- Whatever has been done to a new plan, a stored chunk can be removed, all but what refers to it
stays, and nothing refers to it afterwards just if no group had it in a role. -/
theorem removeChunk_forgets_iff (supply : KeySupply) (changes : List Change) {k : ChunkKey}
    {C : Chunk} (hC : (changeAll { supply } changes).chunks.get? k = some C) :
    ∃ q, (changeAll { supply } changes).removeChunk k = .ok (q, some { C with groups := ∅ }) ∧
      (changeAll { supply } changes).Removed q k ∧
      (¬ q.Mentions k ↔ ¬ (changeAll { supply } changes).HasRole k) := by
  have h := (detachable_empty {} supply).changeAll changes
  obtain ⟨q, hq, r, -⟩ := h.removeChunk_ok hC
  exact ⟨q, hq, r, not_congr (h.mentions_iff r)⟩

theorem removeChunk_forgets_async : ∃ q C,
    (changeAll {} [.action (.addEntrypoint "main" "main.js"),
      .action (.addAsyncChunk ⟨1⟩ none ["lazy.js"])]).removeChunk ⟨4⟩ = .ok (q, some C) ∧
      ¬ q.Mentions ⟨4⟩ := by
  obtain ⟨q, hq, -, hforgets⟩ := removeChunk_forgets_iff {}
    [.action (.addEntrypoint "main" "main.js"), .action (.addAsyncChunk ⟨1⟩ none ["lazy.js"])]
    (k := ⟨4⟩) rfl
  exact ⟨q, _, hq, hforgets.mpr (by decide)⟩

/-- The group of an entrypoint still names the chunk that was its only one. -/
theorem removed_entry_chunk : ∃ q C G,
    (changeAll {} [.action (.addEntrypoint "main" "main.js")]).removeChunk ⟨2⟩ = .ok (q, some C) ∧
      q.groups.get? ⟨1⟩ = some G ∧ G.chunks = [] ∧ G.runtimeChunk = some ⟨2⟩ ∧
      G.entryChunk = some ⟨2⟩ :=
  ⟨_, _, _, rfl, rfl, rfl, rfl, rfl⟩

end Plan

end Bundler
