import Bundler.Proofs.Growth
import Mathlib.Logic.Relation
/-!
# Plans that are merges of others

A plan is a merge of another when every chunk of the other has a survivor and each survivor holds
what the chunks that it stands for held, no more and no less. Every merge of two chunks gives such a
plan, and merges of merges are merges, so that any run of merges amounts to one partition.
-/
namespace Bundler
open ChunkGroup (redirect renamed)

/-- What a chunk may hold: modules, entry modules, groups, hints and the names of runtimes. -/
inductive Content where
  | module (m : ModuleId)
  | entryModule (m : ModuleId)
  | group (g : GroupKey)
  | hint (name : String)
  | runtime (name : String)

namespace Plan

def Has (p : Plan) (k : ChunkKey) : Content → Prop
  | .module m => ∃ r, p.placement.chunks.get? k = some r ∧ m ∈ r.modules
  | .entryModule m => ∃ r, p.placement.chunks.get? k = some r ∧ m ∈ r.entryModules.keys
  | .group g => p.Names k g
  | .hint name => ∃ c, p.chunks.get? k = some c ∧ name ∈ c.hints
  | .runtime name => ∃ c, p.chunks.get? k = some c ∧ name ∈ c.runtime

def Named (p : Plan) (k : ChunkKey) (name : String) : Prop :=
  ∃ c, p.chunks.get? k = some c ∧ c.name = some name

def Pinned (p : Plan) (k : ChunkKey) : Prop := ∃ c, p.chunks.get? k = some c ∧ c.pinned = true

def Loads (p : Plan) (g : GroupKey) (m : ModuleId) : Prop :=
  ∃ k, p.Lists g k ∧ p.Has k (.module m)

/-- The plan `q` is the plan `p` with every chunk merged into its survivor `f k`. The classes of
chunks with one survivor are the parts of the merge. -/
structure MergedBy (f : ChunkKey → ChunkKey) (p q : Plan) : Prop where
  outside : ∀ k ∉ p.chunks.keys, f k = k
  stored : ∀ k ∈ p.chunks.keys, f k ∈ p.chunks.keys
  settled : ∀ k ∈ p.chunks.keys, f (f k) = f k
  keys : q.chunks.keys = p.chunks.keys.filter fun k => f k = k
  has : ∀ k x, q.Has k x ↔ ∃ i, f i = k ∧ p.Has i x
  named : ∀ k name, q.Named k name → ∃ i, f i = k ∧ p.Named i name
  keepsName : ∀ i name, p.Named i name → ∃ name', q.Named (f i) name'
  pinned : ∀ k, p.Pinned k → q.Pinned k ∧ ∀ i, f i = f k → i = k
  groupKeys : q.groups.keys = p.groups.keys
  group : ∀ g, q.groups.get? g = (p.groups.get? g).map (redirect f)
  modules : q.modules = p.modules
  entrypoints : q.entrypoints = p.entrypoints

variable {p q r : Plan} {f e : ChunkKey → ChunkKey}

theorem MergedBy.refl (h : p.Consistent) : p.MergedBy id p where
  outside _ _ := rfl
  stored _ hk := hk
  settled _ _ := rfl
  keys := (List.filter_eq_self.mpr fun _ _ => decide_eq_true rfl).symm
  has := by simp
  named k name hname := ⟨k, rfl, hname⟩
  keepsName i name hname := ⟨name, hname⟩
  pinned k hk := ⟨hk, fun _ hi => hi⟩
  groupKeys := rfl
  group g := by
    cases hG : p.groups.get? g with
    | none => rfl
    | some G =>
      have hself : G.redirect id = G :=
        ChunkGroup.redirect_eq_self (h.sound hG).nodup (fun _ _ => rfl) fun _ _ => rfl
      rw [Option.map_some, hself]
  modules := rfl
  entrypoints := rfl

theorem MergedBy.mem_keys (h : p.MergedBy f q) {k : ChunkKey} :
    k ∈ q.chunks.keys ↔ k ∈ p.chunks.keys ∧ f k = k := by
  rw [h.keys, List.mem_filter, decide_eq_true_iff]

theorem MergedBy.survives (h : p.MergedBy f q) {k : ChunkKey} (hk : k ∈ p.chunks.keys) :
    f k ∈ q.chunks.keys :=
  h.mem_keys.mpr ⟨h.stored k hk, h.settled k hk⟩

/-- The survivors of the second of two merges are the survivors of the survivors. -/
theorem MergedBy.trans (h : p.MergedBy f q) (h' : q.MergedBy e r) : p.MergedBy (e ∘ f) r := by
  -- The survivor of a survivor is one itself.
  have hfixed : ∀ k ∈ p.chunks.keys, f (e (f k)) = e (f k) := by
    intro k hk
    exact (h.mem_keys.mp (h'.stored _ (h.survives hk))).2
  refine { outside := ?_, stored := ?_, settled := ?_, keys := ?_, has := ?_, named := ?_,
           keepsName := ?_, pinned := ?_, groupKeys := h'.groupKeys.trans h.groupKeys, group := ?_,
           modules := h'.modules.trans h.modules,
           entrypoints := h'.entrypoints.trans h.entrypoints }
  · intro k hk
    have hq : k ∉ q.chunks.keys := fun hin => hk (h.mem_keys.mp hin).1
    show e (f k) = k
    rw [h.outside k hk, h'.outside k hq]
  · intro k hk
    exact (h.mem_keys.mp (h'.stored _ (h.survives hk))).1
  · intro k hk
    show e (f (e (f k))) = e (f k)
    rw [hfixed k hk, h'.settled _ (h.survives hk)]
  · rw [h'.keys, h.keys, List.filter_filter]
    apply List.filter_congr
    intro k hk
    rw [← Bool.decide_and, decide_eq_decide]
    constructor
    · intro hex
      rcases hex with ⟨he, hf⟩
      show e (f k) = k
      rw [hf, he]
    · intro hef
      have hf : f k = k := by
        have hfix := hfixed k hk
        rw [show e (f k) = k from hef] at hfix
        exact hfix
      exact ⟨by rw [← hf]; exact hef.trans hf.symm, hf⟩
  · intro k x
    rw [h'.has]
    constructor
    · intro hex
      rcases hex with ⟨i, hi, hx⟩
      obtain ⟨l, hl, hx⟩ := (h.has i x).mp hx
      exact ⟨l, by rw [Function.comp_apply, hl, hi], hx⟩
    · intro hex
      rcases hex with ⟨l, hl, hx⟩
      exact ⟨f l, hl, (h.has _ x).mpr ⟨l, rfl, hx⟩⟩
  · intro k name hname
    obtain ⟨i, hi, hname⟩ := h'.named k name hname
    obtain ⟨l, hl, hname⟩ := h.named i name hname
    exact ⟨l, by rw [Function.comp_apply, hl, hi], hname⟩
  · intro i name hname
    obtain ⟨name', hname'⟩ := h.keepsName i name hname
    exact h'.keepsName _ _ hname'
  · intro k hk
    obtain ⟨hkq, hsingle⟩ := h.pinned k hk
    obtain ⟨hkr, hsingle'⟩ := h'.pinned k hkq
    have hf : f k = k := by
      obtain ⟨c, hc, -⟩ := hkq
      exact (h.mem_keys.mp (OrderedMap.mem_keys_of_get? hc)).2
    refine ⟨hkr, fun i hi => hsingle i ?_⟩
    have hi' : e (f i) = e k := by
      rw [← hf]
      exact hi
    rw [hsingle' _ hi', hf]
  · intro g
    rw [h'.group, h.group, Option.map_map]
    congr 1
    funext G
    exact ChunkGroup.redirect_redirect e f G

theorem MergedBy.lists_iff (h : p.MergedBy f q) {g : GroupKey} {k : ChunkKey} :
    q.Lists g k ↔ ∃ i, f i = k ∧ p.Lists g i := by
  constructor
  · intro hex
    rcases hex with ⟨G, hG, hk⟩
    rw [h.group] at hG
    obtain ⟨G₀, hG₀, rfl⟩ := Option.map_eq_some_iff.mp hG
    obtain ⟨i, hi, hik⟩ := ChunkGroup.mem_redirect.mp hk
    exact ⟨i, hik, G₀, hG₀, hi⟩
  · intro hex
    rcases hex with ⟨i, hik, G₀, hG₀, hi⟩
    refine ⟨G₀.redirect f, ?_, ChunkGroup.mem_redirect.mpr ⟨i, hi, hik⟩⟩
    rw [h.group, hG₀, Option.map_some]

theorem MergedBy.child_iff (h : p.MergedBy f q) {g i : GroupKey} : q.Child g i ↔ p.Child g i := by
  constructor
  · intro hex
    rcases hex with ⟨G, hG, hi⟩
    rw [h.group] at hG
    obtain ⟨G₀, hG₀, rfl⟩ := Option.map_eq_some_iff.mp hG
    exact ⟨G₀, hG₀, hi⟩
  · intro hex
    rcases hex with ⟨G₀, hG₀, hi⟩
    refine ⟨G₀.redirect f, ?_, hi⟩
    rw [h.group, hG₀, Option.map_some]

theorem MergedBy.loads (h : p.MergedBy f q) {g : GroupKey} {m : ModuleId} (hm : p.Loads g m) :
    q.Loads g m := by
  obtain ⟨k, hk, hm⟩ := hm
  exact ⟨f k, h.lists_iff.mpr ⟨k, rfl, hk⟩, (h.has _ _).mpr ⟨k, rfl, hm⟩⟩

end Plan

namespace Placement

theorem mergedName_cases {entryA entryB : Bool} {a b : Option String} {name : String}
    (h : mergedName entryA entryB a b = some name) : a = some name ∨ b = some name := by
  unfold mergedName at h
  split at h
  · cases h
  · exact Or.inl h
  · exact Or.inr h
  · repeat' split at h
    all_goals first | exact Or.inl h | exact Or.inr h

theorem isSome_mergedName (entryA entryB : Bool) {a b : Option String}
    (h : a.isSome = true ∨ b.isSome = true) : (mergedName entryA entryB a b).isSome = true := by
  unfold mergedName
  split
  · rcases h with h | h
    · cases h
    · cases h
  · rfl
  · rfl
  · rfl

theorem not_pinned_of_canMerge {p : Placement} {gs : Groups} {a b : Chunk}
    (h : p.canMerge gs a b = .ok true) : a.pinned = false ∧ b.pinned = false := by
  unfold canMerge at h
  split at h
  · cases h
  · rename_i hpinned
    rw [Bool.not_eq_true, Bool.or_eq_false_iff] at hpinned
    exact hpinned

end Placement

namespace Plan
variable {p q : Plan} {A B : Chunk} {r s : ChunkRecord}

namespace Joined

theorem has_iff (j : p.Joined q A B r s) {k : ChunkKey} {x : Content} :
    q.Has k x ↔ ∃ i, p.Has i x ∧ renamed B.key A.key i = k := by
  cases x with
  | module m =>
    exact OrderedMap.exists_absorbed j.ne j.targetRecord j.sourceRecord j.record
      OrderedSet.mem_insertAll
  | entryModule m =>
    exact OrderedMap.exists_absorbed j.ne j.targetRecord j.sourceRecord j.record
      OrderedMap.mem_keys_foldl_insert
  | group g => exact j.names_iff
  | hint name =>
    exact OrderedMap.exists_absorbed j.ne j.target j.source j.chunk NameSet.mem_union
  | runtime name =>
    exact OrderedMap.exists_absorbed j.ne j.target j.source j.chunk NameSet.mem_union

theorem named (j : p.Joined q A B r s) {k : ChunkKey} {name : String} (h : q.Named k name) :
    ∃ i, renamed B.key A.key i = k ∧ p.Named i name := by
  obtain ⟨c, hc, hname⟩ := h
  by_cases hb : k = B.key
  · rw [j.chunk, if_pos hb] at hc
    cases hc
  · by_cases ha : k = A.key
    · rw [ha, j.chunk_target] at hc
      cases hc
      rcases Placement.mergedName_cases hname with hname | hname
      · exact ⟨A.key, by rw [renamed, if_neg j.ne, ha], A, j.target, hname⟩
      · exact ⟨B.key, by rw [renamed, if_pos rfl, ha], B, j.source, hname⟩
    · rw [j.chunk_other ha hb] at hc
      exact ⟨k, if_neg hb, c, hc, hname⟩

theorem keepsName (j : p.Joined q A B r s) {i : ChunkKey} {name : String} (h : p.Named i name) :
    ∃ name', q.Named (renamed B.key A.key i) name' := by
  obtain ⟨c, hc, hname⟩ := h
  have hjoined : A.name.isSome = true ∨ B.name.isSome = true → ∃ name', q.Named A.key name' := by
    intro hsome
    obtain ⟨name', hname'⟩ := Option.isSome_iff_exists.mp
      (Placement.isSome_mergedName (!r.entryModules.isEmpty) (!s.entryModules.isEmpty) hsome)
    exact ⟨name', _, j.chunk_target, hname'⟩
  unfold renamed
  split
  · rename_i hi
    rw [hi, j.source] at hc
    cases hc
    exact hjoined (Or.inr (hname ▸ rfl))
  · rename_i hi
    by_cases ha : i = A.key
    · rw [ha, j.target] at hc
      cases hc
      exact ha ▸ hjoined (Or.inl (hname ▸ rfl))
    · exact ⟨name, c, (j.chunk_other ha hi).trans hc, hname⟩

/-- A merge of two chunks that may be merged is a merge in which they form the only class of more
than one chunk. -/
theorem mergedBy (j : p.Joined q A B r s) (h : p.Consistent)
    (hmay : p.placement.canMerge p.groups A B = .ok true) :
    p.MergedBy (renamed B.key A.key) q := by
  obtain ⟨hpinA, hpinB⟩ := Placement.not_pinned_of_canMerge hmay
  have hinA := OrderedMap.mem_keys_of_get? j.target
  have hinB := OrderedMap.mem_keys_of_get? j.source
  refine { outside := ?_, stored := ?_, settled := ?_, keys := ?_, has := ?_,
           named := fun _ _ => j.named, keepsName := fun _ _ => j.keepsName, pinned := ?_,
           groupKeys := j.groupKeys, group := j.group_redirect h, modules := j.modules,
           entrypoints := j.entrypoints }
  · intro k hk
    apply if_neg
    intro heq
    subst heq
    exact hk hinB
  · intro k hk
    unfold renamed
    split
    · exact hinA
    · exact hk
  · intro k _
    by_cases hk : k = B.key
    · rw [renamed, renamed, if_pos hk, if_neg j.ne]
    · rw [renamed, renamed, if_neg hk, if_neg hk]
  · rw [j.chunkKeys]
    apply List.filter_congr
    intro k _
    rw [decide_eq_decide, renamed]
    constructor
    · exact fun hk => if_neg hk
    · intro hk heq
      subst heq
      rw [if_pos rfl] at hk
      exact j.ne hk
  · intro k x
    rw [j.has_iff]
    exact exists_congr fun i => and_comm
  · intro k hex
    rcases hex with ⟨c, hc, hpin⟩
    have ha : k ≠ A.key := by
      intro heq
      subst heq
      rw [j.target] at hc
      cases hc
      rw [hpinA] at hpin
      cases hpin
    have hb : k ≠ B.key := by
      intro heq
      subst heq
      rw [j.source] at hc
      cases hc
      rw [hpinB] at hpin
      cases hpin
    refine ⟨⟨c, (j.chunk_other ha hb).trans hc, hpin⟩, fun i hi => ?_⟩
    rw [renamed, renamed, if_neg hb] at hi
    split at hi
    · exact absurd hi.symm ha
    · exact hi

end Joined

def MergeStep (p q : Plan) : Prop :=
  ∃ A B r s, p.placement.canMerge p.groups A B = .ok true ∧ p.Joined q A B r s

/-- The plan `q` comes from the plan `p` by merges of two chunks that may be merged. -/
abbrev Merges : Plan → Plan → Prop := Relation.ReflTransGen MergeStep

theorem Merges.consistent (hm : p.Merges q) (h : p.Consistent) : q.Consistent := by
  induction hm with
  | refl => exact h
  | tail _ hstep ih =>
    obtain ⟨A, B, r, s, -, j⟩ := hstep
    exact j.consistent ih

theorem Merges.mergedBy (hm : p.Merges q) (h : p.Consistent) : ∃ f, p.MergedBy f q := by
  induction hm with
  | refl => exact ⟨id, MergedBy.refl h⟩
  | tail hm hstep ih =>
    obtain ⟨f, hf⟩ := ih
    obtain ⟨A, B, r, s, hmay, j⟩ := hstep
    exact ⟨_, hf.trans (j.mergedBy (Merges.consistent hm h) hmay)⟩

end Plan

end Bundler
