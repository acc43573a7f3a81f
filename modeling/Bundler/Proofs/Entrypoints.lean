import Bundler.Proofs.Actions
import Bundler.Proofs.EntryModules
import Mathlib.Data.List.Perm.Subperm
/-!
# Entrypoints keep their chunks

Every entrypoint has a chunk of its own, which carries its runtime, holds its entry module and bears
its name, whatever else is done to the plan. The chunks with a runtime are just those with an entry
module, so that no two of them may be merged, and a merge of one of them with another chunk keeps
its name and its entry module whichever of the two survives.
-/
namespace Bundler

namespace Plan
variable {p q : Plan} {c : ChunkKey} {g : GroupKey}

namespace Grown
variable {C : Chunk} {G : ChunkGroup} {k : ChunkKey}

theorem runtime_old (j : p.Grown q C G) (h : p.Consistent) (hk : p.Runtime g k) :
    q.Runtime g k := by
  obtain ⟨H, hH, hinitial, hruntime⟩ := hk
  refine ⟨_, j.group_old h hH, ?_⟩
  split
  · exact ⟨hinitial, hruntime⟩
  · exact ⟨hinitial, hruntime⟩

theorem runtime_cases (j : p.Grown q C G) (hk : q.Runtime g k) : g = G.key ∨ p.Runtime g k := by
  obtain ⟨H, hH, hinitial, hruntime⟩ := hk
  rcases j.group_cases hH with ⟨hg, -⟩ | ⟨H₀, hH₀, rfl⟩
  · exact Or.inl hg
  · refine Or.inr ⟨H₀, hH₀, ?_⟩
    split at hinitial
    · rw [if_pos ‹_›] at hruntime
      exact ⟨hinitial, hruntime⟩
    · rw [if_neg ‹_›] at hruntime
      exact ⟨hinitial, hruntime⟩

theorem named_old (j : p.Grown q C G) (h : p.Consistent) {name : String} (hk : p.Named k name) :
    q.Named k name := by
  obtain ⟨D, hD, hname⟩ := hk
  refine ⟨D, ?_, hname⟩
  have hne : k ≠ C.key := by
    intro heq
    subst heq
    exact j.chunkKey_free h (OrderedMap.mem_keys_of_get? hD)
  rw [j.chunks, OrderedMap.get?_insert, if_neg hne, hD]

end Grown

/-- The entrypoints of a plan are those in the list, by name and entry module. Each has a chunk that
carries its runtime, bears its name and holds its entry module, and no other chunk carries a runtime
or holds an entry module. -/
structure Rooted (p : Plan) (es : List (String × ModuleId)) : Prop where
  names : p.entrypoints.keys = es.map Prod.fst
  root : ∀ e ∈ es, ∃ g k, p.entrypoints.get? e.1 = some g ∧ p.Runtime g k ∧ p.Named k e.1 ∧
    (p.placement.entries k).get? e.2 = some g
  started : ∀ {g k}, p.Runtime g k → ∃ name, p.entrypoints.get? name = some g
  only : ∀ {k m}, p.Has k (.entryModule m) → ∃ g, p.Runtime g k

theorem rooted_empty (modules : ModuleGraph) (supply : KeySupply) :
    Rooted { modules, supply } [] := by
  constructor <;> simp [Runtime, Has]

theorem has_entryModule_iff {k : ChunkKey} {m : ModuleId} :
    p.Has k (.entryModule m) ↔ m ∈ (p.placement.entries k).keys := by
  unfold Has Placement.entries
  cases p.placement.chunks.get? k <;> simp

theorem Runtime.unique {i k : ChunkKey} (hi : p.Runtime g i) (hk : p.Runtime g k) : i = k := by
  obtain ⟨G, hG, -, hruntime⟩ := hi
  obtain ⟨H, hH, -, hruntime'⟩ := hk
  rw [hG] at hH
  cases hH
  rw [hruntime] at hruntime'
  exact Option.some.inj hruntime'

variable {es : List (String × ModuleId)} {name : String} {entry : ModuleId} {k : ChunkKey}

theorem Rooted.addEntrypoint (h : p.Rooted es) (hp : p.Consistent)
    (hname : name ∉ es.map Prod.fst) (hadd : p.addEntrypoint name entry = (q, .ok (g, c))) :
    q.Rooted (es ++ [(name, entry)]) := by
  obtain ⟨rfl, rfl, j⟩ := hp.grown_of_addEntrypoint hadd
  obtain ⟨hentrypoints, hnamed, hruntime, hentries⟩ := addEntrypoint_root hadd
  have hget : ∀ other, other ≠ name →
      q.entrypoints.get? other = p.entrypoints.get? other := by
    intro other hne
    rw [hentrypoints, OrderedMap.get?_insert, if_neg hne]
  refine { names := ?_, root := ?_, started := ?_, only := ?_ }
  · rw [hentrypoints, OrderedMap.keys_insert, h.names, if_neg hname, List.map_append]
    rfl
  · intro e he
    rcases List.mem_append.mp he with he | he
    · obtain ⟨g, k, hg, hk, hbears, hholds⟩ := h.root e he
      have hne : e.1 ≠ name := by
        intro heq
        exact hname (heq ▸ List.mem_map_of_mem he)
      refine ⟨g, k, (hget _ hne).trans hg, j.runtime_old hp hk, j.named_old hp hbears, ?_⟩
      have hkC : k ≠ (p.entryChunk name).key := by
        intro heq
        obtain ⟨D, hD, -⟩ := hbears
        exact j.chunkKey_free hp (heq ▸ OrderedMap.mem_keys_of_get? hD)
      rw [hentries, Function.update_of_ne hkC]
      exact hholds
    · rw [List.mem_singleton] at he
      subst he
      refine ⟨_, _, ?_, hruntime, hnamed, ?_⟩
      · rw [hentrypoints, OrderedMap.get?_insert_self]
      · rw [hentries, Function.update_self, OrderedMap.get?_insert_self]
  · intro g k hk
    rcases j.runtime_cases hk with rfl | hold
    · exact ⟨name, by rw [hentrypoints, OrderedMap.get?_insert_self]⟩
    · obtain ⟨other, hother⟩ := h.started hold
      have hne : other ≠ name := by
        intro heq
        exact hname (h.names ▸ heq ▸ OrderedMap.mem_keys_of_get? hother)
      exact ⟨other, (hget _ hne).trans hother⟩
  · intro k m hm
    by_cases hk : k = (p.entryChunk name).key
    · exact ⟨_, hk ▸ hruntime⟩
    · rw [has_entryModule_iff, hentries, Function.update_of_ne hk, ← has_entryModule_iff] at hm
      obtain ⟨g, hg⟩ := h.only hm
      exact ⟨g, j.runtime_old hp hg⟩

theorem Rooted.addAsyncChunk {parent : GroupKey} {label : Option String} {ms : List ModuleId}
    (h : p.Rooted es) (hp : p.Consistent)
    (hadd : p.addAsyncChunk parent label ms = (q, .ok (g, c))) : q.Rooted es := by
  obtain ⟨above, -, rfl, rfl, j⟩ := hp.grown_of_addAsyncChunk hadd
  obtain ⟨hentrypoints, hruntime, hentries⟩ := addAsyncChunk_root hadd
  refine { names := hentrypoints ▸ h.names, root := ?_, started := ?_, only := ?_ }
  · intro e he
    obtain ⟨g, k, hg, hk, hbears, hholds⟩ := h.root e he
    exact ⟨g, k, hentrypoints ▸ hg, j.runtime_old hp hk, j.named_old hp hbears, hentries ▸ hholds⟩
  · intro g k hk
    rcases j.runtime_cases hk with rfl | hold
    · exact absurd hk (hruntime k)
    · exact hentrypoints ▸ h.started hold
  · intro k m hm
    rw [has_entryModule_iff, hentries, ← has_entryModule_iff] at hm
    obtain ⟨g, hg⟩ := h.only hm
    exact ⟨g, j.runtime_old hp hg⟩

theorem Consistent.hasRuntime_iff (h : p.Consistent) {c : Chunk} (hc : p.chunks.get? k = some c) :
    c.hasRuntime p.groups = true ↔ ∃ g, p.Runtime g k := by
  obtain rfl := h.key hc
  unfold Chunk.hasRuntime Chunk.storedGroups
  rw [List.any_eq_true]
  constructor
  · intro hex
    rcases hex with ⟨G, hG, hboth⟩
    obtain ⟨g, -, hG⟩ := List.mem_filterMap.mp hG
    rw [Bool.and_eq_true, decide_eq_true_iff] at hboth
    exact ⟨g, G, hG, hboth⟩
  · intro hex
    rcases hex with ⟨g, G, hG, hinitial, hruntime⟩
    obtain ⟨c', hc', hg⟩ := (h.link c.key g).mpr ⟨G, hG, (h.sound hG).listed _ hruntime⟩
    rw [hc] at hc'
    cases hc'
    refine ⟨G, List.mem_filterMap.mpr ⟨g, hg, hG⟩, ?_⟩
    rw [Bool.and_eq_true, decide_eq_true_iff]
    exact ⟨hinitial, hruntime⟩

theorem Rooted.root_of_entrypoint (h : p.Rooted es) (hg : p.entrypoints.get? name = some g) :
    ∃ entry k, (name, entry) ∈ es ∧ p.Runtime g k ∧ p.Named k name ∧
      (p.placement.entries k).get? entry = some g := by
  have hin : name ∈ es.map Prod.fst := h.names ▸ OrderedMap.mem_keys_of_get? hg
  obtain ⟨e, he, rfl⟩ := List.mem_map.mp hin
  obtain ⟨g', k, hg', hk, hbears, hholds⟩ := h.root e he
  rw [hg] at hg'
  cases hg'
  exact ⟨e.2, k, he, hk, hbears, hholds⟩

/-- Every runtime is that of an entrypoint, in a chunk with its entry module. -/
theorem Rooted.of_runtime (h : p.Rooted es) (hk : p.Runtime g k) :
    ∃ e ∈ es, p.entrypoints.get? e.1 = some g ∧ (p.placement.entries k).get? e.2 = some g := by
  obtain ⟨name, hname⟩ := h.started hk
  obtain ⟨entry, i, he, hi, -, hholds⟩ := h.root_of_entrypoint hname
  obtain rfl := hk.unique hi
  exact ⟨(name, entry), he, hname, hholds⟩

theorem Rooted.runtime_iff (h : p.Rooted es) {r : ChunkRecord}
    (hr : p.placement.chunks.get? k = some r) :
    (∃ g, p.Runtime g k) ↔ r.entryModules.isEmpty = false := by
  rw [OrderedMap.isEmpty_eq_false]
  constructor
  · intro hex
    rcases hex with ⟨g, hg⟩
    obtain ⟨e, -, -, hholds⟩ := h.of_runtime hg
    rw [Placement.entries_of_get? hr] at hholds
    exact ⟨e.2, OrderedMap.mem_keys_of_get? hholds⟩
  · intro hex
    rcases hex with ⟨m, hm⟩
    exact h.only ⟨r, hr, hm⟩

namespace Joined
variable {A B : Chunk} {r s : ChunkRecord}

theorem runtime_iff (j : p.Joined q A B r s) (h : p.Consistent) :
    q.Runtime g k ↔ ∃ i, p.Runtime g i ∧ ChunkGroup.renamed B.key A.key i = k := by
  constructor
  · intro hex
    rcases hex with ⟨G, hG, hinitial, hruntime⟩
    obtain ⟨G₀, hG₀, rfl⟩ := (j.get?_group h).mp hG
    obtain ⟨i, hi, hik⟩ := Option.map_eq_some_iff.mp hruntime
    exact ⟨i, ⟨G₀, hG₀, hinitial, hi⟩, hik⟩
  · intro hex
    rcases hex with ⟨i, ⟨G₀, hG₀, hinitial, hi⟩, rfl⟩
    exact ⟨_, (j.get?_group h).mpr ⟨G₀, hG₀, rfl⟩, hinitial,
      Option.map_eq_some_iff.mpr ⟨i, hi, rfl⟩⟩

/-- Two chunks that may be merged do not both carry a runtime. -/
theorem one_runtime (j : p.Joined q A B r s) (h : p.Rooted es) (hp : p.Consistent)
    (hmay : p.placement.canMerge p.groups A B = .ok true) :
    ¬ ((∃ g, p.Runtime g A.key) ∧ ∃ g, p.Runtime g B.key) := by
  intro hboth
  rcases hboth with ⟨hA, hB⟩
  have hentry := (h.runtime_iff j.targetRecord).mp hA
  rw [← hp.hasRuntime_iff j.target] at hA
  rw [← hp.hasRuntime_iff j.source] at hB
  rw [Placement.canMerge_eq j.targetRecord j.sourceRecord, hA, hB, hentry] at hmay
  simp at hmay

/-- The survivor of a runtime chunk bears its name and holds its entry modules. -/
theorem keepsRoot (j : p.Joined q A B r s) (h : p.Rooted es) (hp : p.Consistent)
    (hmay : p.placement.canMerge p.groups A B = .ok true) {i : ChunkKey} {m : ModuleId}
    {g' : GroupKey} (hi : p.Runtime g i) (hname : p.Named i name)
    (hm : (p.placement.entries i).get? m = some g') :
    q.Named (ChunkGroup.renamed B.key A.key i) name ∧
      (q.placement.entries (ChunkGroup.renamed B.key A.key i)).get? m = some g' := by
  obtain ⟨D, hD, hDname⟩ := hname
  have hone := j.one_runtime h hp hmay
  have hrecord : q.placement.entries A.key = (r.absorb s).entryModules :=
    Placement.entries_of_get? (by rw [j.record, if_neg j.ne, if_pos rfl])
  unfold ChunkGroup.renamed
  split
  · rename_i hib
    subst hib
    rw [j.source] at hD
    cases hD
    have hr : r.entryModules.isEmpty = true := by
      rw [← Bool.not_eq_false, ← h.runtime_iff j.targetRecord]
      exact fun hA => hone ⟨hA, g, hi⟩
    have hs : s.entryModules.isEmpty = false := (h.runtime_iff j.sourceRecord).mp ⟨g, hi⟩
    rw [Placement.entries_of_get? j.sourceRecord] at hm
    refine ⟨⟨_, j.chunk_target, ?_⟩, ?_⟩
    · rw [Chunk.absorb, hr, hs, hDname]
      exact Placement.mergedName_source A.name name
    · rw [hrecord]
      exact OrderedMap.get?_foldl_insert_of_mem s.entryModules.nodup (OrderedMap.mem_of_get? hm)
  · rename_i hib
    by_cases hia : i = A.key
    · subst hia
      rw [j.target] at hD
      cases hD
      have hr : r.entryModules.isEmpty = false := (h.runtime_iff j.targetRecord).mp ⟨g, hi⟩
      have hs : s.entryModules.isEmpty = true := by
        rw [← Bool.not_eq_false, ← h.runtime_iff j.sourceRecord]
        exact fun hB => hone ⟨⟨g, hi⟩, hB⟩
      rw [Placement.entries_of_get? j.targetRecord] at hm
      refine ⟨⟨_, j.chunk_target, ?_⟩, ?_⟩
      · rw [Chunk.absorb, hr, hs, hDname]
        exact Placement.mergedName_target name B.name
      · rw [hrecord, ChunkRecord.absorb, List.isEmpty_iff.mp hs]
        exact hm
    · refine ⟨⟨D, (j.chunk_other hia hib).trans hD, hDname⟩, ?_⟩
      rw [Placement.entries, j.record, if_neg hib, if_neg hia]
      exact hm

end Joined

theorem Rooted.merged {A B : Chunk} {r s : ChunkRecord} (h : p.Rooted es) (hp : p.Consistent)
    (j : p.Joined q A B r s) (hmay : p.placement.canMerge p.groups A B = .ok true) :
    q.Rooted es := by
  refine { names := j.entrypoints ▸ h.names, root := ?_, started := ?_, only := ?_ }
  · intro e he
    obtain ⟨g, i, hg, hi, hbears, hholds⟩ := h.root e he
    obtain ⟨hbears', hholds'⟩ := j.keepsRoot h hp hmay hi hbears hholds
    exact ⟨g, _, j.entrypoints ▸ hg, (j.runtime_iff hp).mpr ⟨i, hi, rfl⟩, hbears', hholds'⟩
  · intro g k hk
    obtain ⟨i, hi, -⟩ := (j.runtime_iff hp).mp hk
    exact j.entrypoints ▸ h.started hi
  · intro k m hm
    obtain ⟨i, hi, hik⟩ := j.has_iff.mp hm
    obtain ⟨g, hg⟩ := h.only hi
    exact ⟨g, (j.runtime_iff hp).mpr ⟨i, hg, hik⟩⟩

theorem Rooted.merges (h : p.Rooted es) (hp : p.Consistent) (hm : p.Merges q) : q.Rooted es := by
  induction hm with
  | refl => exact h
  | tail hm hstep ih =>
    obtain ⟨A, B, r, s, hmay, j⟩ := hstep
    exact ih.merged (Merges.consistent hm hp) j hmay

theorem Rooted.pin (h : p.Rooted es) (i : ChunkKey) : (p.pin i).Rooted es :=
  { h with
    root := by
      intro e he
      obtain ⟨g, k, hg, hk, ⟨c, hc, hname⟩, hholds⟩ := h.root e he
      refine ⟨g, k, hg, hk, ?_, hholds⟩
      rw [Named, get?_pin, hc]
      split
      · exact ⟨_, rfl, hname⟩
      · exact ⟨c, rfl, hname⟩ }

/-- The entrypoint that an action adds, if it adds one. -/
def Action.entrypoint? : Action → Option (String × ModuleId)
  | .addEntrypoint name entry => some (name, entry)
  | _ => none

def entrypointsOf (actions : List Action) : List (String × ModuleId) :=
  actions.filterMap Action.entrypoint?

/-- An action keeps every entrypoint and adds one at most, under a name of its own. -/
theorem Rooted.perform (h : p.Rooted es) (hp : p.Consistent) (a : Action)
    (hnames : ((es ++ a.entrypoint?.toList).map Prod.fst).Nodup) :
    (p.perform a).1.Rooted (es ++ a.entrypoint?.toList) := by
  cases a with
  | setModules modules => exact (List.append_nil es).symm ▸ { h with }
  | addEntrypoint name entry =>
    obtain ⟨q, hadd, -⟩ := hp.addEntrypoint_ok name entry
    have hname : name ∉ es.map Prod.fst := by
      rw [List.map_append, List.nodup_append] at hnames
      exact fun hin => hnames.2.2 name hin name List.mem_cons_self rfl
    rw [Plan.perform, hadd]
    exact h.addEntrypoint hp hname hadd
  | addAsyncChunk parent label ms =>
    rw [Plan.perform]
    rcases p.addAsyncChunk_cases parent label ms with hrefused | ⟨q, g, c, hadd⟩
    · rw [hrefused]
      exact (List.append_nil es).symm ▸ h
    · rw [hadd]
      exact (List.append_nil es).symm ▸ h.addAsyncChunk hp hadd
  | pin k => exact (List.append_nil es).symm ▸ h.pin k
  | pass l =>
    obtain ⟨q, changed, hpass, hpassed⟩ := l.pass_ok hp
    rw [Plan.perform, hpass]
    exact (List.append_nil es).symm ▸ h.merges hp hpassed.merges

theorem entrypointsOf_cons (a : Action) (actions : List Action) :
    entrypointsOf (a :: actions) = a.entrypoint?.toList ++ entrypointsOf actions := by
  unfold entrypointsOf
  rw [List.filterMap_cons]
  cases a.entrypoint? with
  | none => rfl
  | some e => rfl

theorem Rooted.performAll (h : p.Rooted es) (hp : p.Reached) (actions : List Action)
    (hnames : ((es ++ entrypointsOf actions).map Prod.fst).Nodup) :
    (p.performAll actions).Rooted (es ++ entrypointsOf actions) := by
  induction actions generalizing p es with
  | nil => exact (List.append_nil es).symm ▸ h
  | cons a actions ih =>
    rw [entrypointsOf_cons, ← List.append_assoc] at hnames ⊢
    have hstep := hnames
    rw [List.map_append, List.nodup_append] at hstep
    exact ih (h.perform hp.consistent a hstep.1) (hp.perform a) hnames

/-- The chunk that carries the runtime of an entrypoint. -/
def runtimeChunk? (p : Plan) (name : String) : Option ChunkKey := do
  let g ← p.entrypoints.get? name
  let G ← p.groups.get? g
  G.runtimeChunk

theorem Consistent.runtimeChunk?_eq_some (h : p.Consistent) :
    p.runtimeChunk? name = some k ↔ ∃ g, p.entrypoints.get? name = some g ∧ p.Runtime g k := by
  unfold runtimeChunk?
  constructor
  · intro hsome
    obtain ⟨g, hg, hsome⟩ := Option.bind_eq_some_iff.mp hsome
    obtain ⟨G, hG, hsome⟩ := Option.bind_eq_some_iff.mp hsome
    obtain ⟨H, hH, hinitial⟩ := h.entry hg
    rw [hG] at hH
    cases hH
    exact ⟨g, hg, G, hG, hinitial, hsome⟩
  · intro hex
    rcases hex with ⟨g, hg, G, hG, -, hruntime⟩
    exact Option.bind_eq_some_iff.mpr ⟨g, hg, Option.bind_eq_some_iff.mpr ⟨G, hG, hruntime⟩⟩

/-- The entrypoints in the list are those of the plan, and each has its own runtime chunk, with its
name and its entry module. -/
structure OwnChunks (p : Plan) (es : List (String × ModuleId)) : Prop where
  names : p.entrypoints.keys = es.map Prod.fst
  kept : ∀ e ∈ es, ∃ g k, p.entrypoints.get? e.1 = some g ∧ p.runtimeChunk? e.1 = some k ∧
    p.Named k e.1 ∧ ∃ r, p.placement.chunks.get? k = some r ∧ r.entryModules.get? e.2 = some g
  apart : ∀ {name name' k}, p.runtimeChunk? name = some k → p.runtimeChunk? name' = some k →
    name = name'
  only : ∀ {k r m}, p.placement.chunks.get? k = some r → m ∈ r.entryModules.keys →
    ∃ e ∈ es, p.runtimeChunk? e.1 = some k
  enough : p.entrypoints.size ≤ p.chunkCount
  files : ∀ e ∈ es, ∃ files, p.assignIds.entrypointFiles e.1 = .ok files ∧ e.1 ++ ".js" ∈ files

theorem Named.unique {name' : String} (h : p.Named k name) (h' : p.Named k name') :
    name = name' := by
  obtain ⟨c, hc, hname⟩ := h
  obtain ⟨d, hd, hname'⟩ := h'
  rw [hc] at hd
  cases hd
  rw [hname] at hname'
  exact Option.some.inj hname'

theorem Rooted.named_of_runtimeChunk (h : p.Rooted es) (hp : p.Consistent)
    (hk : p.runtimeChunk? name = some k) : p.Named k name := by
  obtain ⟨g, hg, hruntime⟩ := hp.runtimeChunk?_eq_some.mp hk
  obtain ⟨entry, i, -, hi, hbears, -⟩ := h.root_of_entrypoint hg
  exact hruntime.unique hi ▸ hbears

/-- There are at least as many chunks as entrypoints, whose names are those of different chunks. -/
theorem Rooted.enough (h : p.Rooted es) : p.entrypoints.size ≤ p.chunkCount := by
  have hsubset : p.entrypoints.keys ⊆ p.chunks.values.filterMap Chunk.name := by
    intro name hname
    rw [h.names] at hname
    obtain ⟨e, he, rfl⟩ := List.mem_map.mp hname
    obtain ⟨g, k, -, -, ⟨c, hc, hbears⟩, -⟩ := h.root e he
    have hvalue : c ∈ p.chunks.values := List.mem_map_of_mem (OrderedMap.mem_of_get? hc)
    exact List.mem_filterMap.mpr ⟨c, hvalue, hbears⟩
  calc p.entrypoints.size = p.entrypoints.keys.length := (OrderedMap.length_keys _).symm
    _ ≤ (p.chunks.values.filterMap Chunk.name).length :=
      (List.subperm_of_subset p.entrypoints.nodup_keys hsubset).length_le
    _ ≤ p.chunks.values.length := List.length_filterMap_le ..
    _ = p.chunkCount := List.length_map ..

theorem Rooted.ownChunks (h : p.Rooted es) (hp : p.Consistent) : p.OwnChunks es := by
  refine { names := h.names, kept := ?_, apart := ?_, only := ?_, enough := h.enough, files := ?_ }
  · intro e he
    obtain ⟨g, k, hg, hk, hbears, hholds⟩ := h.root e he
    exact ⟨g, k, hg, hp.runtimeChunk?_eq_some.mpr ⟨g, hg, hk⟩, hbears,
      Placement.exists_of_entries hholds⟩
  · intro name name' k hk hk'
    exact (h.named_of_runtimeChunk hp hk).unique (h.named_of_runtimeChunk hp hk')
  · intro k r m hr hm
    obtain ⟨g, hg⟩ := h.only ⟨r, hr, hm⟩
    obtain ⟨e, he, hname, -⟩ := h.of_runtime hg
    exact ⟨e, he, hp.runtimeChunk?_eq_some.mpr ⟨g, hname, hg⟩⟩
  · intro e he
    obtain ⟨g, k, hg, ⟨G, hG, -, hruntime⟩, ⟨c, hc, hbears⟩, -⟩ := h.root e he
    obtain ⟨files, hfiles, hall⟩ := hp.assignIds.entrypointFiles_ok e.1
    obtain ⟨id, fs, hnew, -, hnamed⟩ := (assignIdsFrom_get? p.chunks.keys p.chunks 0).2 k c hc
    refine ⟨files, hfiles, ?_⟩
    exact hall g G k _ hg hG ((hp.sound hG).listed k hruntime) hnew _
      (hnamed (OrderedMap.mem_keys_of_get? hc) e.1 hbears)

/-- Entrypoints with different names keep their own chunks, whatever else is done to the plan. -/
theorem performAll_ownChunks (supply : KeySupply) (actions : List Action)
    (hnames : ((entrypointsOf actions).map Prod.fst).Nodup) :
    (performAll { supply } actions).OwnChunks (entrypointsOf actions) := by
  have hreached : Reached { supply } := .start {} supply
  have hrooted := (rooted_empty {} supply).performAll hreached actions hnames
  exact hrooted.ownChunks (hreached.performAll actions).consistent

/-- Two entrypoints with one entry module, and a chunk loaded after each of them. -/
def sharedEntry : List Action :=
  [.addEntrypoint "a" "main.js", .addEntrypoint "b" "main.js",
    .addAsyncChunk ⟨1⟩ (some "c") ["c.js"], .addAsyncChunk ⟨3⟩ none ["d.js"],
    .pass ⟨1, {}, by decide⟩]

theorem sharedEntry_ownChunks : ((entrypointsOf sharedEntry).map Prod.fst).Nodup ∧
    (performAll { supply := {} } sharedEntry).OwnChunks (entrypointsOf sharedEntry) :=
  ⟨by decide, performAll_ownChunks {} sharedEntry (by decide)⟩

end Plan

end Bundler
