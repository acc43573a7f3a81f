/-!
# Sorted sets of names

A finite set of strings listed in ascending order. The order is that of code points, which is also
the order of the UTF-8 bytes. The view is `toList`, and membership decides equality.
-/
namespace Bundler

/-- A finite set of strings, listed in strictly ascending order. -/
structure NameSet where
  toList : List String
  ascending : toList.Pairwise (· < ·)

namespace NameSet

theorem ext {s t : NameSet} (h : s.toList = t.toList) : s = t := by
  cases s; cases t; cases h; rfl

instance : DecidableEq NameSet := fun s t =>
  if h : s.toList = t.toList then isTrue (ext h) else isFalse fun e => h (e ▸ rfl)

instance : Membership String NameSet := ⟨fun s a => a ∈ s.toList⟩

theorem mem_iff {s : NameSet} {a : String} : a ∈ s ↔ a ∈ s.toList := Iff.rfl

instance (a : String) (s : NameSet) : Decidable (a ∈ s) :=
  inferInstanceAs (Decidable (a ∈ s.toList))

theorem ascending_nil : ([] : List String).Pairwise (· < ·) := .nil

def empty : NameSet := ⟨[], ascending_nil⟩

instance : EmptyCollection NameSet := ⟨empty⟩

instance : Inhabited NameSet := ⟨empty⟩

@[simp] theorem toList_empty : (∅ : NameSet).toList = [] := rfl

@[simp] theorem not_mem_empty (a : String) : a ∉ (∅ : NameSet) := List.not_mem_nil

def isEmpty (s : NameSet) : Bool := s.toList.isEmpty

/-- Puts a name where the order wants it, unless it is there. -/
def insertAscending (a : String) : List String → List String
  | [] => [a]
  | b :: bs => if a < b then a :: b :: bs else if a = b then b :: bs else b :: insertAscending a bs

@[simp] theorem mem_insertAscending {a c : String} {bs : List String} :
    c ∈ insertAscending a bs ↔ c = a ∨ c ∈ bs := by
  induction bs with
  | nil => simp [insertAscending]
  | cons b bs ih => unfold insertAscending; grind

private theorem lt_of_not_lt_of_ne {a b : String} (h : ¬a < b) (hne : a ≠ b) : b < a := by
  rcases Std.lt_trichotomy a b with h' | h' | h'
  · exact absurd h' h
  · exact absurd h' hne
  · exact h'

theorem pairwise_insertAscending (a : String) {bs : List String} (h : bs.Pairwise (· < ·)) :
    (insertAscending a bs).Pairwise (· < ·) := by
  induction bs with
  | nil => simp [insertAscending]
  | cons b bs ih =>
    rw [List.pairwise_cons] at h
    unfold insertAscending
    split
    · rename_i hab
      refine List.pairwise_cons.2 ⟨?_, List.pairwise_cons.2 h⟩
      intro c hc
      rcases List.mem_cons.1 hc with rfl | hc
      · exact hab
      · exact String.lt_trans hab (h.1 c hc)
    · split
      · exact List.pairwise_cons.2 h
      · rename_i hab hne
        refine List.pairwise_cons.2 ⟨?_, ih h.2⟩
        intro c hc
        rcases mem_insertAscending.1 hc with rfl | hc
        · exact lt_of_not_lt_of_ne hab hne
        · exact h.1 c hc

def insert (s : NameSet) (a : String) : NameSet :=
  ⟨insertAscending a s.toList, pairwise_insertAscending a s.ascending⟩

@[simp] theorem mem_insert {s : NameSet} {a b : String} : b ∈ s.insert a ↔ b ∈ s ∨ b = a := by
  simp [mem_iff, insert, or_comm]

/-- Adds every name of a list. Neither the order of the list nor its repeats show. -/
def insertAll (s : NameSet) (as : List String) : NameSet := as.foldl insert s

@[simp] theorem mem_insertAll {s : NameSet} {as : List String} {b : String} :
    b ∈ s.insertAll as ↔ b ∈ s ∨ b ∈ as := by
  unfold insertAll
  induction as generalizing s with
  | nil => simp
  | cons a as ih => simp [ih]; grind

def ofList (as : List String) : NameSet := (∅ : NameSet).insertAll as

@[simp] theorem mem_ofList {as : List String} {b : String} : b ∈ ofList as ↔ b ∈ as := by
  simp [ofList]

def union (s t : NameSet) : NameSet := s.insertAll t.toList

@[simp] theorem mem_union {s t : NameSet} {b : String} : b ∈ s.union t ↔ b ∈ s ∨ b ∈ t := by
  unfold union; rw [mem_insertAll]; rfl

private theorem eq_of_mem_iff {as bs : List String} (ha : as.Pairwise (· < ·))
    (hb : bs.Pairwise (· < ·)) (h : ∀ x, x ∈ as ↔ x ∈ bs) : as = bs := by
  induction as generalizing bs with
  | nil => cases bs with
    | nil => rfl
    | cons b bs => exact absurd ((h b).2 (by simp)) (by simp)
  | cons a as ih =>
    cases bs with
    | nil => exact absurd ((h a).1 (by simp)) (by simp)
    | cons b bs =>
      rw [List.pairwise_cons] at ha hb
      have hab : a = b := by
        rcases List.mem_cons.1 ((h a).1 (by simp)) with e | hm
        · exact e
        · rcases List.mem_cons.1 ((h b).2 (by simp)) with e | hm'
          · exact e.symm
          · exact absurd (hb.1 a hm) (String.lt_asymm (ha.1 b hm'))
      subst hab
      congr 1
      refine ih ha.2 hb.2 fun x => ⟨fun hx => ?_, fun hx => ?_⟩
      · rcases List.mem_cons.1 ((h x).1 (by simp [hx])) with rfl | hm
        · exact absurd (ha.1 x hx) (String.lt_irrefl x)
        · exact hm
      · rcases List.mem_cons.1 ((h x).2 (by simp [hx])) with rfl | hm
        · exact absurd (hb.1 x hx) (String.lt_irrefl x)
        · exact hm

/-- Two sets with the same members are the same set. -/
theorem ext_mem {s t : NameSet} (h : ∀ x, x ∈ s ↔ x ∈ t) : s = t :=
  ext (eq_of_mem_iff s.ascending t.ascending h)

theorem union_comm (s t : NameSet) : s.union t = t.union s :=
  ext_mem fun x => by simp [or_comm]

/-- The names in order, with bars between them. Sets whose names hold bars may be written alike. -/
def joined (s : NameSet) : String := "|".intercalate s.toList

end NameSet

end Bundler
