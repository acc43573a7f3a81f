import Bundler.Proofs.Additions
import Bundler.Proofs.Entrypoints
/-!
# Runtimes reach down

A chunk that is loaded below an entrypoint, however far below, is loaded in its runtime: an
on-demand chunk starts with the runtimes of its parent's chunks, and a merged chunk has those of
both.
-/
namespace Bundler

namespace Plan
variable {p q : Plan} {C : Chunk} {G : ChunkGroup} {g h : GroupKey} {k : ChunkKey} {name : String}

/-- The groups `g` and what can be reached from it through children. -/
abbrev Below (p : Plan) : GroupKey → GroupKey → Prop := Relation.ReflTransGen p.Child

/-- Every chunk of a group at or below that of an entrypoint has the entrypoint in its runtime. -/
def Covered (p : Plan) : Prop := ∀ name g h k, p.entrypoints.get? name = some g → p.Below g h →
  p.Lists h k → p.Has k (.runtime name)

theorem Consistent.child_stored (hp : p.Consistent) (hc : p.Child g h) :
    g ∈ p.groups.keys ∧ h ∈ p.groups.keys := by
  obtain ⟨H, hH, -⟩ := (hp.mirror g h).mp hc
  obtain ⟨G, hG, -⟩ := hc
  exact ⟨OrderedMap.mem_keys_of_get? hG, OrderedMap.mem_keys_of_get? hH⟩

namespace Grown

/-- A new group is below what its parents are below, and nothing else has come in between. -/
theorem below_cases (j : p.Grown q C G) (hp : p.Consistent) (hbelow : q.Below g h) :
    h = G.key ∧ (g = G.key ∨ ∃ parent ∈ G.parents, p.Below g parent) ∨
      h ≠ G.key ∧ p.Below g h := by
  induction hbelow with
  | refl =>
    by_cases hg : g = G.key
    · exact Or.inl ⟨hg, Or.inl hg⟩
    · exact Or.inr ⟨hg, .refl⟩
  | @tail i h _ hstep ih =>
    rcases (j.child_iff hp).mp hstep with hchild | ⟨hparent, rfl⟩
    · obtain ⟨hi, hh⟩ := hp.child_stored hchild
      have hnew : ∀ l ∈ p.groups.keys, l ≠ G.key :=
        fun l hl heq => j.groupKey_free hp (heq ▸ hl)
      rcases ih with ⟨rfl, -⟩ | ⟨-, hold⟩
      · exact absurd rfl (hnew _ hi)
      · exact Or.inr ⟨hnew _ hh, hold.tail hchild⟩
    · have hi : i ≠ G.key := fun heq => j.groupKey_free hp (heq ▸ j.above i hparent)
      rcases ih with ⟨heq, -⟩ | ⟨-, hold⟩
      · exact absurd heq hi
      · exact Or.inl ⟨rfl, Or.inr ⟨i, hparent, hold⟩⟩

theorem runtime_has (j : p.Grown q C G) (hp : p.Consistent) (hk : p.Has k (.runtime name)) :
    q.Has k (.runtime name) := by
  obtain ⟨c, hc, hname⟩ := hk
  have hne : k ≠ C.key := fun heq => j.chunkKey_free hp (heq ▸ OrderedMap.mem_keys_of_get? hc)
  refine ⟨c, ?_, hname⟩
  rw [j.chunks, OrderedMap.get?_insert, if_neg hne, hc]

/-- It is enough that the new chunk has the runtimes of the entrypoints of its group and those that
all chunks of a parent have. -/
theorem covered (j : p.Grown q C G) (hp : p.Consistent) (hcovered : p.Covered)
    (hroot : ∀ name, q.entrypoints.get? name = some G.key → q.Has C.key (.runtime name))
    (hinherit : ∀ parent ∈ G.parents, ∀ name, (∀ k, p.Lists parent k → p.Has k (.runtime name)) →
      q.Has C.key (.runtime name)) : q.Covered := by
  intro name g h k hname hbelow hlists
  have hold : g ≠ G.key → p.entrypoints.get? name = some g := by
    intro hg
    rcases j.entrypoints hname with ⟨heq, -⟩ | hold
    · exact absurd heq hg
    · exact hold
  have hstored : p.entrypoints.get? name = some g → g ≠ G.key := by
    intro hget heq
    obtain ⟨H, hH, -⟩ := hp.entry hget
    exact j.groupKey_free hp (heq ▸ OrderedMap.mem_keys_of_get? hH)
  rcases j.below_cases hp hbelow with ⟨rfl, hcase⟩ | ⟨hh, hbelow'⟩
  · have hk : k = C.key := by
      rcases (j.lists_iff hp).mp hlists with ⟨H, hH, -⟩ | ⟨-, hk⟩
      · exact absurd (OrderedMap.mem_keys_of_get? hH) (j.groupKey_free hp)
      · exact hk
    subst hk
    rcases hcase with rfl | ⟨parent, hparent, hbelow'⟩
    · exact hroot name hname
    · by_cases hg : g = G.key
      · exact hroot name (hg ▸ hname)
      · exact hinherit parent hparent name fun i hi =>
          hcovered name g parent i (hold hg) hbelow' hi
  · have hg : g ≠ G.key := by
      intro heq
      subst heq
      rcases Relation.ReflTransGen.cases_head hbelow' with rfl | ⟨i, hchild, -⟩
      · exact hh rfl
      · exact j.groupKey_free hp (hp.child_stored hchild).1
    rcases (j.lists_iff hp).mp hlists with hlists' | ⟨heq, -⟩
    · exact j.runtime_has hp (hcovered name g h k (hold hg) hbelow' hlists')
    · exact absurd heq hh

end Grown

theorem Covered.addEntrypoint {entry : ModuleId} {c : ChunkKey} (h : p.Covered) (hp : p.Consistent)
    (hadd : p.addEntrypoint name entry = (q, .ok (g, c))) : q.Covered := by
  obtain ⟨rfl, rfl, j⟩ := hp.grown_of_addEntrypoint hadd
  obtain ⟨-, -, ids, t, placement, -, -, -, hq⟩ := addEntrypoint_eq_ok hadd
  apply j.covered hp h
  · intro other hother
    rw [hq] at hother
    rcases OrderedMap.get?_insert_cases hother with ⟨rfl, -⟩ | ⟨-, hold⟩
    · refine ⟨p.entryChunk other, ?_, NameSet.mem_ofList.mpr List.mem_cons_self⟩
      rw [j.chunks, OrderedMap.get?_insert_self]
    · obtain ⟨H, hH, -⟩ := hp.entry hold
      exact absurd (OrderedMap.mem_keys_of_get? hH) (j.groupKey_free hp)
  · intro parent hparent
    exact absurd hparent (not_mem_entryGroup_parents p name parent)

theorem mem_runtimeOf {above : ChunkGroup} {c : Chunk} (hk : k ∈ above.chunks)
    (hc : p.chunks.get? k = some c) (hname : name ∈ c.runtime) : name ∈ p.runtimeOf above := by
  have hin : c ∈ above.chunks.filterMap p.chunks.get? := List.mem_filterMap.mpr ⟨k, hk, hc⟩
  exact NameSet.mem_ofList.mpr (List.mem_flatMap.mpr ⟨c, hin, NameSet.mem_iff.mp hname⟩)

theorem Covered.addAsyncChunk {parent : GroupKey} {label : Option String} {ms : List ModuleId}
    {c : ChunkKey} (h : p.Covered) (hp : p.Consistent)
    (hadd : p.addAsyncChunk parent label ms = (q, .ok (g, c))) : q.Covered := by
  obtain ⟨above, habove, rfl, rfl, j⟩ := hp.grown_of_addAsyncChunk hadd
  obtain ⟨_, -, -, -, hplace⟩ := addAsyncChunk_eq_ok hadd
  obtain ⟨placement, hq⟩ := placeEach_eq_ok hplace
  apply j.covered hp h
  · intro other hother
    rw [hq] at hother
    obtain ⟨H, hH, -⟩ := hp.entry hother
    exact absurd (OrderedMap.mem_keys_of_get? hH) (j.groupKey_free hp)
  · intro parent' hparent other hall
    obtain rfl := mem_asyncGroup_parents.mp hparent
    obtain ⟨k, hk⟩ := List.exists_mem_of_ne_nil _ (hp.sound habove).nonempty
    obtain ⟨d, hd, hother⟩ := hall k ⟨above, habove, hk⟩
    refine ⟨p.asyncChunk above label, ?_, mem_runtimeOf hk hd hother⟩
    rw [j.chunks, OrderedMap.get?_insert_self]

theorem Covered.mergedBy {f : ChunkKey → ChunkKey} (h : p.Covered) (hm : p.MergedBy f q) :
    q.Covered := by
  have hbelow : ∀ {g i}, q.Below g i → p.Below g i := by
    intro g i hi
    induction hi with
    | refl => exact .refl
    | tail _ hstep ih => exact ih.tail (hm.child_iff.mp hstep)
  intro name g i k hname hi hlists
  obtain ⟨l, hlk, hl⟩ := hm.lists_iff.mp hlists
  have hold : p.Has l (.runtime name) := h name g i l (hm.entrypoints ▸ hname) (hbelow hi) hl
  exact (hm.has k _).mpr ⟨l, hlk, hold⟩

theorem Covered.pin (h : p.Covered) (i : ChunkKey) : (p.pin i).Covered := by
  intro name g j k hname hbelow hlists
  obtain ⟨c, hc, hin⟩ := h name g j k hname hbelow hlists
  rw [Has, get?_pin, hc]
  split
  · exact ⟨_, rfl, hin⟩
  · exact ⟨c, rfl, hin⟩

theorem Reached.covered (hp : p.Reached) : p.Covered := by
  induction hp with
  | start modules supply =>
    intro name g h k hname
    cases hname
  | entrypoint hp hadd ih => exact ih.addEntrypoint hp.consistent hadd
  | async hp hadd ih => exact ih.addAsyncChunk hp.consistent hadd
  | pin _ k ih => exact ih.pin k
  | pass hp l ih =>
    obtain ⟨q, changed, hpass, hpassed⟩ := l.pass_ok hp.consistent
    obtain ⟨f, hf⟩ := hpassed.merges.mergedBy hp.consistent
    rw [hpass]
    exact ih.mergedBy hf
  | graph _ modules ih => exact ih

end Plan

end Bundler
