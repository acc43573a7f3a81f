import Bundler.Proofs.Joined
/-!
# Both sides of a placement

A placement notes three relations between chunks and modules, each of them twice: in the records of
chunks and in those of modules. This module shows that the two notes agree after any operations,
those included that fail, merges half-way through among them, and that a chunk without a record is
noted on no module.
-/
namespace Bundler

/-- The three ways in which a module may be in a chunk. -/
inductive Bond where
  | content
  | entry
  | runtime
  deriving DecidableEq

/-- The modules that a chunk's record names for a bond. -/
def ChunkRecord.named (r : ChunkRecord) : Bond → List ModuleId
  | .content => r.modules.toList
  | .entry => r.entryModules.keys
  | .runtime => r.runtimeModules.toList

/-- The chunks that a module's record names for a bond. -/
def ModuleRecord.named (r : ModuleRecord) : Bond → List ChunkKey
  | .content => r.chunks.toList
  | .entry => r.entryIn.toList
  | .runtime => r.runtimeIn.toList

namespace ModuleRecord

@[simp] theorem named_empty (k : Bond) : ({} : ModuleRecord).named k = [] := by
  cases k <;> rfl

theorem mem_named_forget {r : ModuleRecord} {c d : ChunkKey} {k : Bond} :
    d ∈ (r.forget c).named k ↔ d ∈ r.named k ∧ d ≠ c := by
  cases k <;> exact OrderedSet.mem_erase

end ModuleRecord

@[simp] theorem ChunkRecord.named_empty (k : Bond) : ({} : ChunkRecord).named k = [] := by
  cases k <;> rfl

namespace Placement

def namedIn (p : Placement) (k : Bond) (c : ChunkKey) : List ModuleId :=
  (p.chunks.get? c).elim [] (·.named k)

theorem namedIn_of_get? {p : Placement} {c : ChunkKey} {r : ChunkRecord} (k : Bond)
    (hr : p.chunks.get? c = some r) : p.namedIn k c = r.named k := by
  rw [namedIn, hr]
  rfl

/-- Whatever the bond, a chunk's side names a module just when the module's side names the chunk. -/
def Paired (p : Placement) : Prop :=
  ∀ k c m, m ∈ p.namedIn k c ↔ c ∈ (p.moduleRecord m).named k

variable {p q : Placement} {c : ChunkKey} {m : ModuleId}

theorem paired_empty : Paired {} := by
  intro k c m
  have hmodule : ({} : Placement).moduleRecord m = {} := rfl
  have hchunk : ({} : Placement).namedIn k c = [] := rfl
  rw [hmodule, hchunk, ModuleRecord.named_empty]
  exact ⟨fun h => absurd h List.not_mem_nil, fun h => absurd h List.not_mem_nil⟩

/-- A change of one bond of one chunk and one module, on both sides, keeps them paired. -/
theorem Paired.update {onChunk : ChunkRecord → ChunkRecord} {onModule : ModuleRecord → ModuleRecord}
    (h : p.Paired) (bond : Bond) (made : Prop)
    (hchunk : ∀ r k n, n ∈ (onChunk r).named k ↔
      if k = bond ∧ n = m then made else n ∈ r.named k)
    (hmodule : ∀ r k d, d ∈ (onModule r).named k ↔
      if k = bond ∧ d = c then made else d ∈ r.named k)
    (hq : p.update c m onChunk onModule = .ok q) : q.Paired := by
  obtain ⟨r, hr, rfl⟩ := update_eq_ok hq
  intro k d n
  have hold := h k d n
  unfold namedIn moduleRecord at hold ⊢
  simp only [OrderedMap.get?_insert]
  by_cases hd : d = c
  · subst hd
    rw [hr] at hold
    rw [if_pos rfl]
    show n ∈ (onChunk r).named k ↔ _
    rw [hchunk]
    by_cases hn : n = m
    · subst hn
      rw [if_pos rfl]
      show _ ↔ d ∈ (onModule (p.moduleRecord n)).named k
      rw [hmodule]
      simp only [and_true]
      split
      · exact Iff.rfl
      · exact hold
    · rw [if_neg hn, if_neg fun hboth => hn hboth.2]
      exact hold
  · rw [if_neg hd]
    by_cases hn : n = m
    · subst hn
      rw [if_pos rfl]
      show _ ↔ d ∈ (onModule (p.moduleRecord n)).named k
      rw [hmodule, if_neg fun hboth => hd hboth.2]
      exact hold
    · rw [if_neg hn]
      exact hold

theorem Paired.connect (h : p.Paired) (hq : p.connect c m = .ok q) : q.Paired := by
  refine h.update .content True ?_ ?_ hq
  · intro r k n
    cases k <;> grind [ChunkRecord.named, OrderedSet.toList_insert]
  · intro r k d
    cases k <;> grind [ModuleRecord.named, OrderedSet.toList_insert]

theorem Paired.disconnect (h : p.Paired) (hq : p.disconnect c m = .ok q) : q.Paired := by
  refine h.update .content False ?_ ?_ hq
  · intro r k n
    cases k <;> grind [ChunkRecord.named, OrderedSet.toList_erase]
  · intro r k d
    cases k <;> grind [ModuleRecord.named, OrderedSet.toList_erase]

theorem Paired.connectEntry {g : GroupKey} (h : p.Paired) (hq : p.connectEntry c m g = .ok q) :
    q.Paired := by
  refine h.update .entry True ?_ ?_ hq
  · intro r k n
    cases k <;> grind [ChunkRecord.named, OrderedMap.keys_insert]
  · intro r k d
    cases k <;> grind [ModuleRecord.named, OrderedSet.toList_insert]

theorem Paired.disconnectEntry (h : p.Paired) (hq : p.disconnectEntry c m = .ok q) : q.Paired := by
  refine h.update .entry False ?_ ?_ hq
  · intro r k n
    cases k <;> grind [ChunkRecord.named, OrderedMap.keys_erase]
  · intro r k d
    cases k <;> grind [ModuleRecord.named, OrderedSet.toList_erase]

theorem Paired.connectRuntime (h : p.Paired) (hq : p.connectRuntime c m = .ok q) : q.Paired := by
  refine h.update .runtime True ?_ ?_ hq
  · intro r k n
    cases k <;> grind [ChunkRecord.named, OrderedSet.toList_insert]
  · intro r k d
    cases k <;> grind [ModuleRecord.named, OrderedSet.toList_insert]

theorem Paired.addNeeds {needs : RuntimeNeeds} (h : p.Paired) (hq : p.addNeeds c needs = .ok q) :
    q.Paired := by
  obtain ⟨r, hr, hq⟩ := exists_of_bind_eq_ok hq
  cases hq
  intro k d n
  rw [← show p.namedIn k d = Placement.namedIn _ k d from ?_]
  · exact h k d n
  · simp only [namedIn, OrderedMap.get?_insert]
    split
    · rename_i hd
      rw [hd, require_eq_ok.mp hr]
      cases k <;> rfl
    · rfl

theorem Paired.addChunk (h : p.Paired) (c : ChunkKey) : (p.addChunk c).Paired := by
  unfold Placement.addChunk
  split
  · exact h
  · rename_i hfree
    have hnone : p.chunks.get? c = none :=
      OrderedMap.get?_eq_none.mpr fun hin => hfree (OrderedMap.contains_iff.mpr hin)
    intro k d n
    rw [← show p.namedIn k d = Placement.namedIn _ k d from ?_]
    · exact h k d n
    · simp only [namedIn, OrderedMap.get?_insert]
      split
      · rename_i hd
        rw [hd, hnone]
        exact (ChunkRecord.named_empty k).symm
      · rfl

theorem moduleRecord_addModule (p : Placement) (m n : ModuleId) :
    (p.addModule m).moduleRecord n = p.moduleRecord n := by
  simp only [moduleRecord, addModule, OrderedMap.get?_insert]
  split
  · rename_i hn
    rw [hn]
    rfl
  · rfl

theorem Paired.addModule (h : p.Paired) (m : ModuleId) : (p.addModule m).Paired := by
  intro k d n
  rw [moduleRecord_addModule]
  exact h k d n

/-- Where chunk `c` is crossed out, for the bonds in `B`, of the records of the modules of a
list. -/
theorem mem_named_foldl_modify {t : OrderedMap ModuleId ModuleRecord} {B : Bond → Prop}
    {f : ModuleRecord → ModuleRecord}
    (hf : ∀ r k d, d ∈ (f r).named k ↔ d ∈ r.named k ∧ ¬(d = c ∧ B k)) (ms : List ModuleId)
    {k : Bond} {d : ChunkKey} :
    d ∈ (((ms.foldl (fun t m => t.modify m f) t).get? m).getD {}).named k ↔
      d ∈ ((t.get? m).getD {}).named k ∧ ¬(d = c ∧ B k ∧ m ∈ ms) := by
  induction ms generalizing t with
  | nil => simp
  | cons n ms ih =>
    have hhead : d ∈ (((t.modify n f).get? m).getD {}).named k ↔
        d ∈ ((t.get? m).getD {}).named k ∧ ¬(d = c ∧ B k ∧ m = n) := by
      rw [OrderedMap.get?_modify]
      by_cases hm : m = n
      · rw [if_pos hm]
        cases hr : t.get? m with
        | none => simp
        | some r => simpa [hm] using hf r k d
      · simp [hm]
    rw [List.foldl_cons, ih, hhead, List.mem_cons, and_assoc, ← not_or, ← and_or_left,
      ← and_or_left]

/-- Crossing a chunk out of the records of the modules that it names for some bonds, and these
modules out of its own record, keeps the sides paired. -/
theorem Paired.cross {r : ChunkRecord} {B : Bond → Prop} {f : ModuleRecord → ModuleRecord}
    {ms : List ModuleId} {chunks : OrderedMap ChunkKey ChunkRecord} (h : p.Paired)
    (hr : p.chunks.get? c = some r)
    (hf : ∀ r k d, d ∈ (f r).named k ↔ d ∈ r.named k ∧ ¬(d = c ∧ B k))
    (hms : ∀ k, B k → ∀ n ∈ r.named k, n ∈ ms)
    (hself : ∀ k n, n ∈ namedIn { chunks } k c ↔ n ∈ r.named k ∧ ¬ B k)
    (hother : ∀ d, d ≠ c → chunks.get? d = p.chunks.get? d) :
    Paired { chunks, modules := ms.foldl (fun t m => t.modify m f) p.modules } := by
  intro k d n
  rw [moduleRecord, mem_named_foldl_modify hf, ← moduleRecord, ← h k d n]
  by_cases hd : d = c
  · subst hd
    rw [namedIn_of_get? k hr]
    refine (hself k n).trans ⟨?_, ?_⟩
    · intro hin
      exact ⟨hin.1, fun hcut => hin.2 hcut.2.1⟩
    · intro hin
      exact ⟨hin.1, fun hk => hin.2 ⟨rfl, hk, hms k hk n hin.1⟩⟩
  · rw [namedIn, hother d hd, ← namedIn]
    simp [hd]

theorem Paired.removeChunk (h : p.Paired) (c : ChunkKey) : (p.removeChunk c).Paired := by
  unfold Placement.removeChunk
  split
  · exact h
  · rename_i r hr
    refine h.cross (B := fun _ => True) (f := (·.forget c)) hr ?_ ?_ ?_ ?_
    · intro r k d
      rw [ModuleRecord.mem_named_forget, and_true]
    · intro k _ n hn
      cases k <;> simp_all [ChunkRecord.named]
    · intro k n
      simp [namedIn, OrderedMap.get?_erase]
    · intro d hd
      rw [OrderedMap.get?_erase, if_neg hd]

theorem Paired.clearModules (h : p.Paired) (hq : p.clearModules c = .ok q) : q.Paired := by
  obtain ⟨r, hr, hq⟩ := exists_of_bind_eq_ok hq
  cases hq
  refine h.cross (B := (· = .content)) (require_eq_ok.mp hr) ?_ ?_ ?_ ?_
  · intro r k d
    cases k <;> simp [ModuleRecord.named]
  · intro k hk n hn
    subst hk
    exact hn
  · intro k n
    rw [namedIn, OrderedMap.get?_insert_self]
    cases k <;> simp [ChunkRecord.named]
  · intro d hd
    rw [OrderedMap.get?_insert, if_neg hd]

theorem Paired.disconnectChunk {chunk : Chunk} {gs : Groups} {r : Placement × Chunk × Groups}
    (h : p.Paired) (hr : p.disconnectChunk chunk gs = .ok r) : r.1.Paired := by
  obtain ⟨t, ht, hr⟩ := exists_of_bind_eq_ok hr
  cases hr
  exact h.clearModules ht

theorem Paired.moveModules {a b : ChunkKey} {ms : List ModuleId} (h : p.Paired)
    (hq : p.moveModules a b ms = .ok q) : q.Paired := by
  refine foldlM_keeps (P := Paired) ?_ h hq
  intro p m q h hq
  obtain ⟨t, hcut, hq⟩ := exists_of_bind_eq_ok hq
  exact (h.disconnect hcut).connect hq

theorem Paired.moveEntries {a b : ChunkKey} {es : List (ModuleId × GroupKey)} (h : p.Paired)
    (hq : p.moveEntries a b es = .ok q) : q.Paired := by
  refine foldlM_keeps (P := Paired) ?_ h hq
  intro p e q h hq
  obtain ⟨t, hcut, hq⟩ := exists_of_bind_eq_ok hq
  exact (h.disconnectEntry hcut).connectEntry hq

end Placement

namespace MergeState
open Placement (Paired)

variable {s t : MergeState}

theorem paired_moveModules (h : s.placement.Paired) (ht : s.moveModules = .ok t) :
    t.placement.Paired := by
  obtain ⟨r, -, ht⟩ := exists_of_bind_eq_ok ht
  obtain ⟨p, hp, ht⟩ := exists_of_bind_eq_ok ht
  obtain ⟨q, hq, ht⟩ := exists_of_bind_eq_ok ht
  cases ht
  exact (h.moveModules hp).moveEntries hq

theorem placement_moveGroups (gs : List GroupKey) :
    (s.moveGroups gs).1.placement = s.placement := by
  induction gs generalizing s with
  | nil => rfl
  | cons g gs ih =>
    rw [moveGroups]
    unfold moveGroup
    split
    · rename_i heq
      split at heq
      · cases heq
      · cases heq
        exact ih
    · rename_i heq
      split at heq
      · cases heq
        rfl
      · cases heq

/-- A merge keeps the sides paired, at whatever point it fails. -/
theorem paired_run (h : s.placement.Paired) : s.run.1.placement.Paired := by
  unfold run
  dsimp only
  split
  · exact h
  · rename_i a b _
    split
    · exact h
    · rename_i t ht
      have hmoved : t.placement.Paired := paired_moveModules (s := s.joinLabels a b) h ht
      have hgroups := placement_moveGroups (s := t) t.source.groups.toList
      split
      · rename_i u _ hu
        rw [hu] at hgroups
        show u.placement.Paired
        rw [hgroups]
        exact hmoved
      · rename_i u hu
        rw [hu] at hgroups
        show (u.placement.removeChunk u.source.key).Paired
        rw [hgroups]
        exact hmoved.removeChunk _

end MergeState

namespace Placement

/-- What may be done to a placement. The chunks and groups that take part are the caller's. -/
inductive Operation where
  | addChunk (c : ChunkKey)
  | addModule (m : ModuleId)
  | connect (c : ChunkKey) (m : ModuleId)
  | disconnect (c : ChunkKey) (m : ModuleId)
  | connectEntry (c : ChunkKey) (m : ModuleId) (g : GroupKey)
  | disconnectEntry (c : ChunkKey) (m : ModuleId)
  | connectRuntime (c : ChunkKey) (m : ModuleId)
  | addNeeds (c : ChunkKey) (needs : RuntimeNeeds)
  | disconnectChunk (c : Chunk) (gs : Groups)
  | removeChunk (c : ChunkKey)
  | merge (target source : Chunk) (gs : Groups)

/-- The placement that an operation leaves. One that fails at once leaves the old one. -/
def orKeep (p : Placement) : Except GraphError Placement → Placement
  | .ok q => q
  | .error _ => p

def after (p : Placement) : Operation → Placement
  | .addChunk c => p.addChunk c
  | .addModule m => p.addModule m
  | .connect c m => p.orKeep (p.connect c m)
  | .disconnect c m => p.orKeep (p.disconnect c m)
  | .connectEntry c m g => p.orKeep (p.connectEntry c m g)
  | .disconnectEntry c m => p.orKeep (p.disconnectEntry c m)
  | .connectRuntime c m => p.orKeep (p.connectRuntime c m)
  | .addNeeds c needs => p.orKeep (p.addNeeds c needs)
  | .disconnectChunk c gs => p.orKeep ((p.disconnectChunk c gs).map (·.1))
  | .removeChunk c => p.removeChunk c
  | .merge target source gs =>
    (MergeState.run { target, source, placement := p, groups := gs }).1.placement

def afterAll (p : Placement) (os : List Operation) : Placement := os.foldl after p

variable {p : Placement} {c : ChunkKey} {m : ModuleId}

theorem Paired.orKeep {r : Except GraphError Placement} (h : p.Paired)
    (hr : ∀ q, r = .ok q → q.Paired) : (p.orKeep r).Paired := by
  cases r with
  | error e => exact h
  | ok q => exact hr q rfl

theorem Paired.after (h : p.Paired) (o : Operation) : (p.after o).Paired := by
  cases o with
  | addChunk c => exact h.addChunk c
  | addModule m => exact h.addModule m
  | connect c m => exact h.orKeep fun _ hq => h.connect hq
  | disconnect c m => exact h.orKeep fun _ hq => h.disconnect hq
  | connectEntry c m g => exact h.orKeep fun _ hq => h.connectEntry hq
  | disconnectEntry c m => exact h.orKeep fun _ hq => h.disconnectEntry hq
  | connectRuntime c m => exact h.orKeep fun _ hq => h.connectRuntime hq
  | addNeeds c needs => exact h.orKeep fun _ hq => h.addNeeds hq
  | disconnectChunk c gs =>
    rw [Placement.after]
    cases hr : p.disconnectChunk c gs with
    | error e => exact h
    | ok r => exact h.disconnectChunk hr
  | removeChunk c => exact h.removeChunk c
  | merge target source gs => exact MergeState.paired_run h

theorem Paired.afterAll (h : p.Paired) (os : List Operation) : (p.afterAll os).Paired := by
  induction os generalizing p with
  | nil => exact h
  | cons o os ih => exact ih (h.after o)

/-- The records of chunks and those of modules agree on all three relations, and a chunk without a
record is on no module's record. -/
structure Agreeing (p : Placement) : Prop where
  content : ∀ c m, (∃ r, p.chunks.get? c = some r ∧ m ∈ r.modules) ↔
    c ∈ (p.moduleRecord m).chunks
  entry : ∀ c m, (∃ r, p.chunks.get? c = some r ∧ m ∈ r.entryModules.keys) ↔
    c ∈ (p.moduleRecord m).entryIn
  runtime : ∀ c m, (∃ r, p.chunks.get? c = some r ∧ m ∈ r.runtimeModules) ↔
    c ∈ (p.moduleRecord m).runtimeIn
  unplaced : ∀ c, p.contains c = false → ∀ m, c ∉ (p.moduleRecord m).chunks ∧
    c ∉ (p.moduleRecord m).entryIn ∧ c ∉ (p.moduleRecord m).runtimeIn

theorem mem_namedIn {k : Bond} : m ∈ p.namedIn k c ↔
    ∃ r, p.chunks.get? c = some r ∧ m ∈ r.named k := by
  unfold namedIn
  cases p.chunks.get? c <;> simp

theorem Paired.agreeing (h : p.Paired) : p.Agreeing where
  content c m := mem_namedIn.symm.trans (h .content c m)
  entry c m := mem_namedIn.symm.trans (h .entry c m)
  runtime c m := mem_namedIn.symm.trans (h .runtime c m)
  unplaced := by
    intro c hc m
    have hnone : p.chunks.get? c = none := by
      cases hr : p.chunks.get? c with
      | none => rfl
      | some r =>
        rw [contains, OrderedMap.contains, hr] at hc
        cases hc
    have hfree : ∀ k, c ∉ (p.moduleRecord m).named k := by
      intro k hin
      rw [← h k c m, namedIn, hnone] at hin
      exact List.not_mem_nil hin
    exact ⟨hfree .content, hfree .entry, hfree .runtime⟩

/-- Both sides agree after any operations on an empty placement. -/
theorem agreeing_afterAll (os : List Operation) : (afterAll {} os).Agreeing :=
  (paired_empty.afterAll os).agreeing

end Placement

end Bundler
