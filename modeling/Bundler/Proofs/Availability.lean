import Bundler.Chunk.Loading
import Bundler.Proofs.OrderedMaps
import Bundler.Proofs.Walks
import Mathlib.Data.List.Chain
/-!
# Going up from a chunk's groups

Going up from some groups along parents ends on all sets of groups, cyclic ones and ones with
parents that are not stored among them. It finds the groups themselves and those above them. A chunk
is there whenever another one is loaded, unless a way leads from a group of the other up to an
initial group without a group of the first.
-/
namespace Bundler

namespace Groups

/-- The stored group `g` has the parent `h`. -/
def Parent (gs : Groups) (g h : GroupKey) : Prop := ∃ G, gs.get? g = some G ∧ h ∈ G.parents

/-- The parents that are named, a group as often as it is. -/
def namedParents (gs : Groups) : List GroupKey := gs.values.flatMap (·.parents.toList)

variable {gs : Groups} {ends start : List GroupKey} {a b : Chunk} {g h : GroupKey}

theorem mem_above : h ∈ gs.above ends start ↔
    ∃ g ∈ start, Relation.ReflTransGen (fun i j => i ∉ ends ∧ gs.Parent i j) g h := by
  have hstep : gs.Leads (fun k (G : ChunkGroup) => if k ∈ ends then [] else G.parents.toList) =
      fun i j => i ∉ ends ∧ gs.Parent i j := by
    funext i j
    by_cases hi : i ∈ ends
    · simp [OrderedMap.Leads, hi]
    · simp [OrderedMap.Leads, Parent, hi, OrderedSet.mem_iff]
  rw [above, OrderedMap.mem_walk_iff, hstep]

theorem mem_above_nil : h ∈ gs.above [] start ↔
    ∃ g ∈ start, Relation.ReflTransGen gs.Parent g h := by
  rw [mem_above]
  simp only [List.not_mem_nil, not_false_eq_true, true_and]

/-- The search comes to no group twice, and to none but those it starts from and parents. -/
theorem length_above_le (gs : Groups) (ends start : List GroupKey) :
    (gs.above ends start).length ≤ start.length + gs.namedParents.length := by
  have hsub : gs.above ends start ⊆ start ++ gs.namedParents := by
    intro h hh
    obtain ⟨g, hg, hup⟩ := mem_above.mp hh
    cases hup with
    | refl => exact List.mem_append_left _ hg
    | tail _ hlast =>
      obtain ⟨-, G, hG, hparent⟩ := hlast
      have hvalue : G ∈ gs.values := List.mem_map_of_mem (OrderedMap.mem_of_get? hG)
      exact List.mem_append_right _ (List.mem_flatMap.mpr ⟨G, hvalue, hparent⟩)
  have hlen := OrderedMap.nodup_walk.length_le_of_subset hsub
  rw [List.length_append] at hlen
  exact hlen

/-- A way up from a group of `b`, each group a parent of the one before it, to an initial group. All
its groups are stored, and none of them is a group of `a`. -/
structure WayUp (gs : Groups) (a b : Chunk) (way : List GroupKey) : Prop where
  starts : ∃ g ∈ b.groups, way.head? = some g
  climbs : way.IsChain gs.Parent
  stored : ∀ g ∈ way, g ∈ gs.keys
  clear : ∀ g ∈ way, g ∉ a.groups
  ends : ∃ g G, way.getLast? = some g ∧ gs.get? g = some G ∧ G.isInitial = true

theorem isAvailable_eq_false : gs.isAvailable a b = false ↔
    ∃ h ∈ gs.above a.groups.toList b.groups.toList, h ∉ a.groups ∧
      ∃ G, gs.get? h = some G ∧ G.isInitial = true := by
  unfold isAvailable
  rw [List.all_eq_false]
  refine exists_congr fun h => and_congr_right fun _ => ?_
  rw [Bool.or_eq_true, not_or, decide_eq_true_iff]
  refine and_congr_right fun _ => ?_
  cases gs.get? h with
  | none => simp
  | some G => simp

/-- The steps of the search that do not leave a group of `a` make up a way. -/
theorem exists_way (hup : Relation.ReflTransGen (fun i j => i ∉ a.groups ∧ gs.Parent i j) g h)
    (hclear : h ∉ a.groups) (hstored : h ∈ gs.keys) :
    ∃ way : List GroupKey, way.head? = some g ∧ way.getLast? = some h ∧
      way.IsChain gs.Parent ∧ ∀ i ∈ way, i ∈ gs.keys ∧ i ∉ a.groups := by
  induction hup using Relation.ReflTransGen.head_induction_on with
  | refl =>
    refine ⟨[h], rfl, rfl, .singleton h, ?_⟩
    intro i hi
    obtain rfl := List.mem_singleton.mp hi
    exact ⟨hstored, hclear⟩
  | @head i j hstep _ ih =>
    obtain ⟨way, hhead, hlast, hchain, hall⟩ := ih
    obtain ⟨hi, hparent⟩ := hstep
    have hinside : i ∈ gs.keys := by
      obtain ⟨G, hG, -⟩ := hparent
      exact OrderedMap.mem_keys_of_get? hG
    refine ⟨i :: way, rfl, ?_, ?_, ?_⟩
    · rw [List.getLast?_cons, hlast]
      rfl
    · refine List.isChain_cons.mpr ⟨?_, hchain⟩
      intro k hk
      rw [hhead] at hk
      cases hk
      exact hparent
    · intro k hk
      rcases List.mem_cons.mp hk with rfl | hk
      · exact ⟨hinside, hi⟩
      · exact hall k hk

theorem reaches_of_way {way : List GroupKey} (hhead : way.head? = some g)
    (hlast : way.getLast? = some h) (hchain : way.IsChain gs.Parent)
    (hclear : ∀ i ∈ way, i ∉ a.groups) :
    Relation.ReflTransGen (fun i j => i ∉ a.groups ∧ gs.Parent i j) g h := by
  induction way generalizing g with
  | nil => cases hhead
  | cons i way ih =>
    cases hhead
    cases way with
    | nil =>
      cases hlast
      exact .refl
    | cons j way =>
      obtain ⟨hparent, hchain⟩ := List.isChain_cons_cons.mp hchain
      have hrest := ih rfl (by rwa [List.getLast?_cons_cons] at hlast) hchain
        fun k hk => hclear k (List.mem_cons_of_mem _ hk)
      exact hrest.head ⟨hclear i List.mem_cons_self, hparent⟩

/-- Whether `a` is always there before `b` is found after finitely many groups, and it is not just
if there is a way up from `b` past all groups of `a`. -/
theorem isAvailable_eq_false_iff_wayUp (gs : Groups) (a b : Chunk) :
    (gs.above a.groups.toList b.groups.toList).length ≤ b.groups.size + gs.namedParents.length ∧
      (gs.isAvailable a b = false ↔ ∃ way, gs.WayUp a b way) := by
  refine ⟨length_above_le gs _ _, ?_⟩
  rw [isAvailable_eq_false]
  constructor
  · intro hex
    rcases hex with ⟨h, hh, hclear, G, hG, hinitial⟩
    obtain ⟨g, hg, hup⟩ := mem_above.mp hh
    obtain ⟨way, hhead, hlast, hchain, hall⟩ :=
      exists_way hup hclear (OrderedMap.mem_keys_of_get? hG)
    exact ⟨way, {
      starts := ⟨g, hg, hhead⟩
      climbs := hchain
      stored := fun i hi => (hall i hi).1
      clear := fun i hi => (hall i hi).2
      ends := ⟨h, G, hlast, hG, hinitial⟩ }⟩
  · intro hex
    rcases hex with ⟨way, hway⟩
    obtain ⟨g, hg, hhead⟩ := hway.starts
    obtain ⟨h, G, hlast, hG, hinitial⟩ := hway.ends
    have hup := reaches_of_way hhead hlast hway.climbs hway.clear
    exact ⟨h, mem_above.mpr ⟨g, hg, hup⟩, hway.clear h (List.mem_of_getLast? hlast), G, hG, hinitial⟩

-- Two groups above each other, and one parent that is not stored: no way up.
example : isAvailable (.ofList [
    (⟨1⟩, { key := ⟨1⟩, kind := .normal, parents := .ofList [⟨2⟩] }),
    (⟨2⟩, { key := ⟨2⟩, kind := .normal, parents := .ofList [⟨9⟩, ⟨1⟩] })])
    { key := ⟨3⟩ } { key := ⟨4⟩, groups := .ofList [⟨1⟩] } = true := by cbv

end Groups

end Bundler
