import Bundler.Proofs.Entrypoints
/-!
# Plans that hold entrypoints only

While nothing but entrypoints has been added to a plan, every chunk carries the runtime of its own
entrypoint. No two of the chunks may be merged, so that a pass under a limit leaves the plan as it
is, and in the end every entrypoint is one file that bears its name.
-/
namespace Bundler

namespace Plan
variable {p q : Plan} {es : List (String × ModuleId)} {name : String} {entry : ModuleId}

section Ids
variable {cs : Chunks} {k : ChunkKey} {c : Chunk}

theorem assignIdsFrom_get?_of_not_mem {ks : List ChunkKey} (hk : k ∉ ks) (cs : Chunks)
    (ordinal : Nat) : (assignIdsFrom cs ordinal ks).get? k = cs.get? k := by
  induction ks generalizing cs ordinal with
  | nil => rfl
  | cons i ks ih =>
    obtain ⟨hi, hks⟩ := not_or.mp (mt List.mem_cons.mpr hk)
    unfold assignIdsFrom
    split
    · exact ih hks cs ordinal
    · rw [ih hks, OrderedMap.get?_insert, if_neg hi]

/-- The id of a named chunk is its name, whatever the other chunks are. -/
theorem assignIdsFrom_get?_of_mem {ks : List ChunkKey} (hks : ks.Nodup) (hk : k ∈ ks)
    (hc : cs.get? k = some c) (hname : c.name = some name) (ordinal : Nat) :
    (assignIdsFrom cs ordinal ks).get? k = some (withId c name) := by
  induction ks generalizing cs ordinal with
  | nil => cases hk
  | cons i ks ih =>
    obtain ⟨hi, hks⟩ := List.nodup_cons.mp hks
    unfold assignIdsFrom
    rcases List.mem_cons.mp hk with rfl | hk
    · rw [hc]
      dsimp only
      rw [assignIdsFrom_get?_of_not_mem hi, OrderedMap.get?_insert_self, idFor, hname]
    · have hne : k ≠ i := fun heq => hi (heq ▸ hk)
      split
      · exact ih hks hk hc ordinal
      · exact ih hks hk (by rw [OrderedMap.get?_insert, if_neg hne, hc]) _

theorem assignIds_get? (hc : p.chunks.get? k = some c) (hname : c.name = some name) :
    p.assignIds.chunks.get? k = some (withId c name) :=
  assignIdsFrom_get?_of_mem p.chunks.nodup_keys (OrderedMap.mem_keys_of_get? hc) hc hname 0

theorem assignIds_chunks (h : ∀ c ∈ p.chunks.values, ∃ name, c.name = some name) :
    p.assignIds.chunks = p.chunks.mapValues fun _ c => withId c (c.name.getD "") := by
  apply OrderedMap.ext_get?
  · rw [OrderedMap.keys_mapValues]
    exact (assignIdsFrom_get? p.chunks.keys p.chunks 0).1
  · intro k
    rw [OrderedMap.get?_mapValues]
    cases hc : p.chunks.get? k with
    | none =>
      have hk := OrderedMap.get?_eq_none.mp hc
      exact (assignIdsFrom_get?_of_not_mem hk p.chunks 0).trans hc
    | some c =>
      obtain ⟨name, hname⟩ := h c (List.mem_map_of_mem (OrderedMap.mem_of_get? hc))
      rw [assignIds_get? hc hname, Option.map_some, hname]
      rfl

end Ids

/-- The plan consists of the entrypoints in the list, in this order, each with a chunk of its own
that has no files yet. -/
structure EntriesOnly (p : Plan) (es : List (String × ModuleId)) : Prop extends p.Rooted es where
  consistent : p.Consistent
  named : p.chunks.values.map Chunk.name = es.map fun e => some e.1
  bare : ∀ c ∈ p.chunks.values, c.files = ∅
  alone : ∀ {g G}, p.groups.get? g = some G → ∃ k, G.chunks = [k]
  carries : ∀ {k}, k ∈ p.chunks.keys → ∃ g, p.Runtime g k

theorem entriesOnly_empty (modules : ModuleGraph) (supply : KeySupply) :
    EntriesOnly { modules, supply } [] where
  toRooted := rooted_empty modules supply
  consistent := (Reached.start modules supply).consistent
  named := rfl
  bare _ hc := absurd hc List.not_mem_nil
  alone hG := by cases hG
  carries hk := absurd hk List.not_mem_nil

namespace EntriesOnly

theorem addEntrypoint (h : p.EntriesOnly es) (hname : name ∉ es.map Prod.fst)
    (entry : ModuleId) : ∃ q g c, p.addEntrypoint name entry = (q, .ok (g, c)) ∧
      q.EntriesOnly (es ++ [(name, entry)]) := by
  obtain ⟨q, hadd, j⟩ := h.consistent.addEntrypoint_ok name entry
  obtain ⟨-, -, hruntime, -⟩ := addEntrypoint_root hadd
  have hvalues : q.chunks.values = p.chunks.values ++ [p.entryChunk name] := by
    rw [j.chunks]
    exact OrderedMap.values_insert_of_not_mem (j.chunkKey_free h.consistent) _
  refine ⟨q, _, _, hadd, ?_⟩
  refine { toRooted := h.toRooted.addEntrypoint h.consistent hname hadd,
           consistent := j.consistent h.consistent, named := ?_, bare := ?_, alone := ?_,
           carries := ?_ }
  · rw [hvalues, List.map_append, List.map_append, h.named]
    rfl
  · intro c hc
    rw [hvalues] at hc
    rcases List.mem_append.mp hc with hc | hc
    · exact h.bare c hc
    · rw [List.mem_singleton.mp hc]
      rfl
  · intro g G hG
    rcases j.group_cases hG with ⟨-, rfl⟩ | ⟨H, hH, hkept⟩
    · exact ⟨_, j.listed⟩
    · rw [hkept, if_neg (not_mem_entryGroup_parents p name g)]
      exact h.alone hH
  · intro k hk
    rw [j.keys h.consistent] at hk
    rcases List.mem_append.mp hk with hk | hk
    · obtain ⟨g, hg⟩ := h.carries hk
      exact ⟨g, j.runtime_old h.consistent hg⟩
    · rw [List.mem_singleton.mp hk]
      exact ⟨_, hruntime⟩

theorem addEntrypoints (h : p.EntriesOnly es) (new : List (String × ModuleId))
    (hnames : ((es ++ new).map Prod.fst).Nodup) :
    ∃ q, new.foldlM enter p = .ok q ∧ q.EntriesOnly (es ++ new) := by
  induction new generalizing p es with
  | nil => exact ⟨p, rfl, (List.append_nil es).symm ▸ h⟩
  | cons e new ih =>
    have hfree : e.1 ∉ es.map Prod.fst := by
      rw [List.map_append, List.nodup_append] at hnames
      exact fun hin => hnames.2.2 e.1 hin e.1 List.mem_cons_self rfl
    obtain ⟨t, g, c, hadd, ht⟩ := h.addEntrypoint hfree e.2
    obtain ⟨q, hq, honly⟩ := ih ht (by rwa [List.append_assoc])
    refine ⟨q, ?_, by rwa [List.append_assoc] at honly⟩
    rw [List.foldlM_cons, enter, hadd]
    exact hq

/-- Every chunk carries a runtime, and two such chunks may not be merged. -/
theorem merges_eq (h : p.EntriesOnly es) (hm : p.Merges q) : q = p := by
  rcases hm.cases_head with heq | ⟨t, hstep, -⟩
  · exact heq.symm
  · obtain ⟨A, B, r, s, hmay, j⟩ := hstep
    have hA := h.carries (OrderedMap.mem_keys_of_get? j.target)
    have hB := h.carries (OrderedMap.mem_keys_of_get? j.source)
    exact absurd ⟨hA, hB⟩ (j.one_runtime h.toRooted h.consistent hmay)

theorem pass_eq (h : p.EntriesOnly es) (l : ChunkLimit) : l.pass p = (p, .ok false) := by
  obtain ⟨q, changed, hpass, hpassed⟩ := l.pass_ok h.consistent
  obtain rfl := h.merges_eq hpassed.merges
  have hchanged : changed = false := by
    rw [← Bool.not_eq_true, hpassed.lowered]
    exact Nat.lt_irrefl _
  rw [hpass, hchanged]

theorem ids (h : p.EntriesOnly es) :
    p.assignIds.chunks.values.map Chunk.id = es.map fun e => some e.1 := by
  have hnamed : ∀ c ∈ p.chunks.values, ∃ name, c.name = some name := by
    intro c hc
    have hname : c.name ∈ es.map fun e => some e.1 := h.named ▸ List.mem_map_of_mem hc
    obtain ⟨e, -, he⟩ := List.mem_map.mp hname
    exact ⟨e.1, he.symm⟩
  have hvalues : (p.chunks.mapValues fun _ c => withId c (c.name.getD "")).values =
      p.chunks.values.map fun c => withId c (c.name.getD "") := by
    unfold OrderedMap.values OrderedMap.mapValues
    rw [List.map_map, List.map_map]
    rfl
  calc p.assignIds.chunks.values.map Chunk.id
      = (p.chunks.values.map Chunk.name).map fun n => some (n.getD "") := by
        rw [assignIds_chunks hnamed, hvalues, List.map_map, List.map_map]
        rfl
    _ = es.map fun e => some e.1 := by
        rw [h.named, List.map_map]
        rfl

/-- An entrypoint is one file, named for it. -/
theorem entrypointFiles (h : p.EntriesOnly es) (hname : name ∈ p.entrypoints.keys) :
    p.assignIds.entrypointFiles name = .ok [name ++ ".js"] := by
  rw [h.names] at hname
  obtain ⟨e, he, rfl⟩ := List.mem_map.mp hname
  obtain ⟨g, k, hg, ⟨G, hG, -, hruntime⟩, ⟨c, hc, hbears⟩, -⟩ := h.root e he
  have hchunks : G.chunks = [k] := by
    obtain ⟨i, hi⟩ := h.alone hG
    have hk := (h.consistent.sound hG).listed k hruntime
    rw [hi, List.mem_singleton] at hk
    rw [hi, hk]
  have hfiles : (withId c e.1).files.toList = [e.1 ++ ".js"] := by
    rw [withId, h.bare c (List.mem_map_of_mem (OrderedMap.mem_of_get? hc))]
    rfl
  have hget : p.assignIds.entrypoints.get? e.1 = some g := hg
  have hgroup : p.assignIds.groups.require g = .ok G := by
    rw [Groups.require]
    exact hG ▸ rfl
  unfold Plan.entrypointFiles
  rw [hget]
  show (p.assignIds.groups.require g >>= _) = _
  rw [hgroup]
  show Except.bind (List.mapM _ G.chunks) _ = _
  rw [hchunks, List.mapM_cons, List.mapM_nil,
    Chunks.require_eq_ok.mpr (assignIds_get? hc hbears)]
  show Except.ok [(withId c e.1).files.toList].flatten = _
  rw [hfiles]
  rfl

end EntriesOnly

end Plan

end Bundler
