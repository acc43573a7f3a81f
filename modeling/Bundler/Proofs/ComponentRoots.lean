import Bundler.Proofs.Roots
/-!
# Roots component by component

Roots may be found from the components of the items, in whatever order these and their members come:
a component that another one depends on is passed over, and from any other come the members that
most of its members depend on. Where the lists are the strongly connected components, these are the
roots that are found by walking.
-/
namespace Bundler

open Relation (ReflTransGen)

variable {κ : Type u}

namespace Dependencies
variable [DecidableEq κ] {d : Dependencies κ} {components : List (List κ)} {component : List κ}
  {i : ℕ} {a v : κ}

/-- The lists divide the items into strongly connected components: every item is in one of them,
once, and with it all that it reaches and that reach it. -/
structure AreComponents (d : Dependencies κ) (components : List (List κ)) : Prop where
  once : components.flatten.Nodup
  covered : ∀ a ∈ d.items, ∃ component ∈ components, a ∈ component
  item : ∀ component ∈ components, ∀ a ∈ component, a ∈ d.items
  linked : ∀ component ∈ components, ∀ v ∈ component, ∀ a, a ∈ component ↔ Linked d.Names a v

theorem AreComponents.componentOf_eq_iff (h : d.AreComponents components)
    (hi : components[i]? = some component) (ha : a ∈ d.items) :
    componentOf components a = i ↔ a ∈ component := by
  obtain ⟨hlt, rfl⟩ := List.getElem?_eq_some_iff.mp hi
  have hdisjoint := List.pairwise_iff_getElem.mp (List.nodup_flatten.mp h.once).2
  constructor
  · intro heq
    obtain ⟨c, hc, hac⟩ := h.covered a ha
    have hlt' : components.findIdx (fun c => decide (a ∈ c)) < components.length :=
      List.findIdx_lt_length.mpr ⟨c, hc, decide_eq_true hac⟩
    subst heq
    exact of_decide_eq_true (List.findIdx_getElem (w := hlt'))
  · intro hin
    refine (List.findIdx_eq hlt).mpr ⟨decide_eq_true hin, fun j hj => ?_⟩
    exact decide_eq_false fun hinj => hdisjoint j i (hj.trans hlt) hlt hj hinj hin

/-- Nothing outside a component depends on a member of it just if none of its members has a source
in another component. -/
theorem AreComponents.isSource_iff (h : d.AreComponents components)
    (hi : components[i]? = some component) (hv : v ∈ component) :
    IsSource d.Names v ↔ ∀ w ∈ component, ∀ a ∈ d.sources w, componentOf components a = i := by
  have hmem := List.mem_of_getElem? hi
  have hlinked := h.linked component hmem v hv
  have hinside : ∀ w, ∀ a ∈ d.sources w, componentOf components a = i ↔ Linked d.Names a v := by
    intro w a ha
    rw [h.componentOf_eq_iff hi (mem_items_of_names (mem_sources.mp ha)), hlinked]
  constructor
  · intro hsource w hw a ha
    exact (hinside w a ha).mpr (hsource a w (mem_sources.mp ha) ((hlinked w).mp hw))
  · intro hall a w hstep hw
    have ha := mem_sources.mpr hstep
    exact (hinside w a ha).mp (hall w ((hlinked w).mpr hw) a ha)

theorem AreComponents.incomingWithin_eq (h : d.AreComponents components)
    (hi : components[i]? = some component) (hv : v ∈ component) :
    d.incomingWithin components i v = demand d.Names v := by
  have hlinked := h.linked component (List.mem_of_getElem? hi) v hv
  have hset : {a | Linked d.Names a v ∧ d.Names a v} =
      (((d.sources v).filter fun a => componentOf components a = i).toFinset : Set κ) := by
    ext a
    simp only [Set.mem_ofPred_eq, List.coe_toFinset, List.mem_filter, mem_sources,
      decide_eq_true_eq, ← hlinked, and_comm (a := d.Names a v)]
    refine and_congr_left fun hstep => ?_
    exact (h.componentOf_eq_iff hi (mem_items_of_names hstep)).symm
  rw [incomingWithin, demand, hset, Set.ncard_coe_finset,
    List.toFinset_card_of_nodup (nodup_sources.filter _)]

theorem AreComponents.mem_rootsIn (h : d.AreComponents components)
    (hi : components[i]? = some component) :
    v ∈ d.rootsIn components component i ↔ v ∈ component ∧ IsSource d.Names v ∧
      ∀ w, Linked d.Names w v → demand d.Names w ≤ demand d.Names v := by
  have hmost : ∀ v ∈ component,
      some (d.incomingWithin components i v) =
          (component.map (d.incomingWithin components i)).max? ↔
        ∀ w, Linked d.Names w v → demand d.Names w ≤ demand d.Names v := by
    intro v hv
    rw [eq_comm, List.max?_eq_some_iff, h.incomingWithin_eq hi hv, List.forall_mem_map]
    constructor
    · intro hmax w hw
      have hin := (h.linked component (List.mem_of_getElem? hi) v hv w).mpr hw
      exact h.incomingWithin_eq hi hin ▸ hmax.2 w hin
    · intro hmax
      refine ⟨List.mem_map.mpr ⟨v, hv, h.incomingWithin_eq hi hv⟩, fun w hw => ?_⟩
      rw [h.incomingWithin_eq hi hw]
      exact hmax w ((h.linked component (List.mem_of_getElem? hi) v hv w).mp hw)
  unfold rootsIn
  simp only [List.any_eq_true, decide_eq_true_eq]
  split
  · rename_i hexternal
    constructor
    · intro hin
      cases hin
    · intro hroot
      obtain ⟨w, hw, a, ha, hne⟩ := hexternal
      exact absurd ((h.isSource_iff hi hroot.1).mp hroot.2.1 w hw a ha) hne
  · rename_i hinternal
    simp only [not_exists, not_and, not_not] at hinternal
    rw [List.mem_filter, decide_eq_true_eq]
    refine and_congr_right fun hv => ?_
    rw [hmost v hv, iff_and_self]
    exact fun _ => (h.isSource_iff hi hv).mpr hinternal

theorem rootsIn_sublist : (d.rootsIn components component i).Sublist component := by
  unfold rootsIn
  dsimp only
  split
  · exact List.nil_sublist _
  · exact List.filter_sublist

theorem AreComponents.nodup_roots (h : d.AreComponents components) :
    (components.zipIdx.flatMap fun e => d.rootsIn components e.1 e.2).Nodup := by
  obtain ⟨hnodup, hdisjoint⟩ := List.nodup_flatten.mp h.once
  refine List.nodup_flatMap.mpr ⟨?_, ?_⟩
  · intro e he
    exact (hnodup e.1 (List.fst_mem_of_mem_zipIdx he)).sublist rootsIn_sublist
  · have hfst : (components.zipIdx.map Prod.fst).Pairwise List.Disjoint := by
      rwa [List.zipIdx_map_fst]
    refine (List.pairwise_map.mp hfst).imp fun {e f} hef v hv hv' => ?_
    exact hef (rootsIn_sublist.subset hv) (rootsIn_sublist.subset hv')

end Dependencies

section Sorted
variable [LinearOrder κ] {items : List κ} {dependencies : κ → List κ}
  {split : Dependencies κ → List (List κ)}

theorem mem_rootsByComponents {le : κ → κ → Bool} {v : κ}
    (h : (Dependencies.among items dependencies).AreComponents
      (split (.among items dependencies))) :
    v ∈ rootsByComponents le split items dependencies ↔ IsRoot items dependencies v := by
  rw [rootsByComponents, List.mem_mergeSort, List.mem_flatMap]
  constructor
  · intro hex
    obtain ⟨⟨component, i⟩, he, hv⟩ := hex
    have hi := List.mem_zipIdx_iff_getElem?.mp he
    obtain ⟨hin, hsource, hmost⟩ := (h.mem_rootsIn hi).mp hv
    have hitem := h.item component (List.mem_of_getElem? hi) v hin
    rw [names_eq_needs] at hsource hmost
    exact ⟨Dependencies.mem_among_items.mp hitem, hsource, hmost⟩
  · intro hroot
    obtain ⟨component, hcomponent, hv⟩ :=
      h.covered v (Dependencies.mem_among_items.mpr hroot.item)
    obtain ⟨i, hi⟩ := List.mem_iff_getElem?.mp hcomponent
    refine ⟨(component, i), List.mem_zipIdx_iff_getElem?.mpr hi, (h.mem_rootsIn hi).mpr ?_⟩
    rw [names_eq_needs]
    exact ⟨hv, hroot.source, hroot.most⟩

/-- Whichever way the components are found, they lead to the roots. -/
theorem rootsByComponents_eq_rootsOf
    (h : (Dependencies.among items dependencies).AreComponents
      (split (.among items dependencies))) :
    rootsByComponents (fun a b => decide (a ≤ b)) split items dependencies =
      rootsOf (fun a b => decide (a ≤ b)) items dependencies := by
  have hnodup : (rootsByComponents (fun a b => decide (a ≤ b)) split items dependencies).Nodup :=
    (List.mergeSort_perm _ _).nodup_iff.mpr h.nodup_roots
  have hsorted : (rootsByComponents (fun a b => decide (a ≤ b)) split items
      dependencies).Pairwise fun a b => decide (a ≤ b) = true :=
    List.pairwise_mergeSort (by simpa using fun a b c => le_trans) (by simpa using le_total) _
  refine List.Perm.eq_of_pairwise ?_ (hsorted.imp of_decide_eq_true)
    ((pairwise_rootsOf items dependencies).imp le_of_lt) ?_
  · exact fun a b _ _ hab hba => le_antisymm hab hba
  · rw [List.perm_ext_iff_of_nodup hnodup nodup_rootsOf]
    exact fun v => by rw [mem_rootsByComponents h, mem_rootsOf]

/-- The cycle of 1, 2 and 3 leads to 4, which is passed over. -/
example : rootsByComponents (fun a b => decide (a ≤ b)) (fun _ => [[4], [3, 2, 1]]) [3, 1, 2, 1, 4]
    (fun | 1 => [2, 4] | 2 => [3] | 3 => [1, 2, 9] | _ => []) = [2] := by cbv

end Sorted

end Bundler
