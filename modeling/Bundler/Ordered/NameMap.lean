/-!
# Sorted maps from names

A finite map from strings, listed in ascending order of the keys. Two such maps with the same
values are the same map, so the order in which keys arrive does not show.
-/
namespace Bundler

/-- A finite map from strings, listed in strictly ascending order of the keys. -/
structure NameMap (β : Type u) where
  toList : List (String × β)
  ascending : (toList.map Prod.fst).Pairwise (· < ·)

namespace NameMap

variable {β : Type u}

theorem ext {m n : NameMap β} (h : m.toList = n.toList) : m = n := by
  cases m; cases n; cases h; rfl

def empty : NameMap β := ⟨[], .nil⟩

instance : EmptyCollection (NameMap β) := ⟨empty⟩

instance : Inhabited (NameMap β) := ⟨empty⟩

@[simp] theorem toList_empty : (∅ : NameMap β).toList = [] := rfl

def isEmpty (m : NameMap β) : Bool := m.toList.isEmpty

def get? (m : NameMap β) (k : String) : Option β := m.toList.lookup k

def contains (m : NameMap β) (k : String) : Bool := (m.get? k).isSome

/-- Puts an entry where the order of the keys wants it, in place of one of the same key. -/
def insertAscending (k : String) (b : β) : List (String × β) → List (String × β)
  | [] => [(k, b)]
  | p :: ps =>
    if k < p.1 then (k, b) :: p :: ps
    else if k = p.1 then (k, b) :: ps
    else p :: insertAscending k b ps

theorem mem_keys_insertAscending {k j : String} {b : β} {ps : List (String × β)}
    (h : j ∈ (insertAscending k b ps).map Prod.fst) : j = k ∨ j ∈ ps.map Prod.fst := by
  induction ps with
  | nil => simpa [insertAscending] using h
  | cons p ps ih =>
    unfold insertAscending at h
    split at h
    · simp at h ⊢; grind
    · split at h
      · simp at h ⊢; grind
      · simp only [List.map_cons, List.mem_cons] at h ⊢; grind

theorem pairwise_insertAscending (k : String) (b : β) {ps : List (String × β)}
    (h : (ps.map Prod.fst).Pairwise (· < ·)) :
    ((insertAscending k b ps).map Prod.fst).Pairwise (· < ·) := by
  induction ps with
  | nil => simp [insertAscending]
  | cons p ps ih =>
    rw [List.map_cons, List.pairwise_cons] at h
    unfold insertAscending
    split
    · rename_i hk
      simp only [List.map_cons, List.pairwise_cons]
      refine ⟨?_, h⟩
      intro j hj
      rcases List.mem_cons.1 hj with rfl | hj
      · exact hk
      · exact String.lt_trans hk (h.1 j hj)
    · split
      · rename_i hk
        simp only [List.map_cons, List.pairwise_cons]
        exact ⟨fun j hj => hk ▸ h.1 j hj, h.2⟩
      · rename_i hlt hne
        simp only [List.map_cons, List.pairwise_cons]
        refine ⟨fun j hj => ?_, ih h.2⟩
        rcases mem_keys_insertAscending hj with rfl | hj
        · rcases Std.lt_trichotomy j p.1 with h' | h' | h'
          · exact absurd h' hlt
          · exact absurd h' hne
          · exact h'
        · exact h.1 j hj

def insert (m : NameMap β) (k : String) (b : β) : NameMap β :=
  ⟨insertAscending k b m.toList, pairwise_insertAscending k b m.ascending⟩

/-- The map of the entries of a list, later ones replacing earlier ones. -/
def ofList (ps : List (String × β)) : NameMap β := ps.foldl (fun m p => m.insert p.1 p.2) ∅

end NameMap

end Bundler
