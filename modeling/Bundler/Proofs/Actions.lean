import Bundler.Build.Compilation
import Bundler.Proofs.LimitRun
/-!
# What may be done to a plan

A plan is built and changed by a few actions, in any order, and some of them may be refused. After
any of them the plan is consistent, so that no later action fails in any other way, and what is
asked of the plan in the end is always answered.
-/
namespace Bundler

namespace Plan
variable {p : Plan}

theorem Consistent.stored_of_listed (h : p.Consistent) {g : GroupKey} {G : ChunkGroup}
    {k : ChunkKey} (hG : p.groups.get? g = some G) (hk : k ∈ G.chunks) :
    ∃ c, p.chunks.get? k = some c := by
  obtain ⟨c, hc, -⟩ := (h.link k g).mpr ⟨G, hG, hk⟩
  exact ⟨c, hc⟩

/-- The files of an entrypoint are those of all the chunks of its group. -/
theorem Consistent.entrypointFiles_ok (h : p.Consistent) (name : String) :
    ∃ files, p.entrypointFiles name = .ok files ∧
      ∀ g G k c, p.entrypoints.get? name = some g → p.groups.get? g = some G → k ∈ G.chunks →
        p.chunks.get? k = some c → ∀ f ∈ c.files, f ∈ files := by
  unfold entrypointFiles
  cases hname : p.entrypoints.get? name with
  | none => exact ⟨[], rfl, fun g _ _ _ hg => by cases hg⟩
  | some g =>
    obtain ⟨G, hG, -⟩ := h.entry hname
    have hrequire : p.groups.require g = .ok G := by rw [Groups.require, hG]
    have hchunk : ∀ k c, p.chunks.get? k = some c →
        (do return (← p.chunks.require k).files.toList : Except GraphError (List String)) =
          .ok c.files.toList := by
      intro k c hc
      rw [Chunks.require_eq_ok.mpr hc]
      rfl
    have hchunks : ∀ k ∈ G.chunks, ∃ files,
        (do return (← p.chunks.require k).files.toList : Except GraphError (List String)) =
          .ok files := by
      intro k hk
      obtain ⟨c, hc⟩ := h.stored_of_listed hG hk
      exact ⟨_, hchunk k c hc⟩
    obtain ⟨files, hfiles, hall⟩ := mapM_returns hchunks
    refine ⟨files.flatten, ?_, ?_⟩
    · show (p.groups.require g >>= _) = _
      rw [hrequire]
      show Except.bind (List.mapM _ G.chunks) _ = _
      rw [hfiles]
      rfl
    · intro g' G' k c hg hG' hk hc f hf
      cases hg
      rw [hG] at hG'
      cases hG'
      exact List.mem_flatten.mpr ⟨_, hall k hk _ (hchunk k c hc), OrderedSet.mem_iff.mp hf⟩

/-- Giving ids to some chunks changes the ids and adds to the files, and nothing else. -/
theorem assignIdsFrom_get? (ks : List ChunkKey) (cs : Chunks) (ordinal : Nat) :
    (assignIdsFrom cs ordinal ks).keys = cs.keys ∧ ∀ k c, cs.get? k = some c →
      ∃ id files, (assignIdsFrom cs ordinal ks).get? k = some { c with id, files } ∧
        (∀ f ∈ c.files, f ∈ files) ∧
        (k ∈ ks → ∀ name, c.name = some name → name ++ ".js" ∈ files) := by
  induction ks generalizing cs ordinal with
  | nil =>
    refine ⟨rfl, fun k c hc => ⟨c.id, c.files, hc, fun _ hf => hf, ?_⟩⟩
    intro hk
    cases hk
  | cons i ks ih =>
    unfold assignIdsFrom
    split
    · rename_i hnone
      obtain ⟨hkeys, hget⟩ := ih cs ordinal
      refine ⟨hkeys, fun k c hc => ?_⟩
      obtain ⟨id, files, hnew, hfiles, hnamed⟩ := hget k c hc
      refine ⟨id, files, hnew, hfiles, fun hk => hnamed ?_⟩
      rcases List.mem_cons.mp hk with rfl | hk
      · rw [hnone] at hc
        cases hc
      · exact hk
    · rename_i d hd
      obtain ⟨hkeys, hget⟩ := ih (cs.insert i (withId d (idFor d ordinal).1)) (idFor d ordinal).2
      refine ⟨hkeys.trans (OrderedMap.keys_insert_of_mem (OrderedMap.mem_keys_of_get? hd) _), ?_⟩
      intro k c hc
      by_cases hki : k = i
      · subst hki
        rw [hd] at hc
        cases hc
        obtain ⟨id, files, hnew, hfiles, -⟩ := hget k _ (OrderedMap.get?_insert_self ..)
        refine ⟨id, files, hnew, ?_, ?_⟩
        · exact fun f hf => hfiles f (OrderedSet.mem_insert.mpr (Or.inl hf))
        · intro _ name hname
          apply hfiles
          rw [withId, idFor, hname]
          exact OrderedSet.mem_insert.mpr (Or.inr rfl)
      · have hold : (cs.insert i (withId d (idFor d ordinal).1)).get? k = some c := by
          rw [OrderedMap.get?_insert, if_neg hki, hc]
        obtain ⟨id, files, hnew, hfiles, hnamed⟩ := hget k c hold
        exact ⟨id, files, hnew, hfiles,
          fun hk => hnamed ((List.mem_cons.mp hk).resolve_left hki)⟩

theorem Consistent.assignIds (h : p.Consistent) : p.assignIds.Consistent := by
  obtain ⟨hkeys, hget⟩ := assignIdsFrom_get? p.chunks.keys p.chunks 0
  refine h.relabel hkeys ?_
  intro k c hc
  have hk : k ∈ p.chunks.keys := hkeys ▸ OrderedMap.mem_keys_of_get? hc
  obtain ⟨c₀, hc₀⟩ := OrderedMap.exists_of_mem_keys hk
  obtain ⟨id, files, hnew, -⟩ := hget k c₀ hc₀
  rw [hc] at hnew
  cases hnew
  exact ⟨c₀, hc₀, rfl, rfl⟩

/-- What may be done to a plan, and to the module graph below it. -/
inductive Action where
  | setModules (modules : ModuleGraph)
  | addEntrypoint (name : String) (entry : ModuleId)
  | addAsyncChunk (parent : GroupKey) (name : Option String) (ms : List ModuleId)
  | pin (k : ChunkKey)
  | pass (l : ChunkLimit)

/-- The plan after an action, and how the action ended. -/
def perform (p : Plan) : Action → Plan × Except GraphError Unit
  | .setModules modules => ({ p with modules }, .ok ())
  | .addEntrypoint name entry =>
    let (q, added) := p.addEntrypoint name entry
    (q, added.map fun _ => ())
  | .addAsyncChunk parent name ms =>
    let (q, added) := p.addAsyncChunk parent name ms
    (q, added.map fun _ => ())
  | .pin k => (p.pin k, .ok ())
  | .pass l => ((l.pass p).1, (l.pass p).2.map fun _ => ())

def performAll (p : Plan) (actions : List Action) : Plan :=
  actions.foldl (fun p a => (p.perform a).1) p

theorem Reached.perform (h : p.Reached) (a : Action) : (p.perform a).1.Reached := by
  cases a with
  | setModules modules => exact h.graph modules
  | addEntrypoint name entry => exact h.after_entrypoint name entry
  | addAsyncChunk parent name ms => exact h.after_async parent name ms
  | pin k => exact h.pin k
  | pass l => exact h.pass l

theorem Reached.performAll (h : p.Reached) (actions : List Action) :
    (p.performAll actions).Reached := by
  induction actions generalizing p with
  | nil => exact h
  | cons a actions ih => exact ih (h.perform a)

end Plan

end Bundler
