import Bundler.Text.Search
import Mathlib.Data.List.Infix
/-!
# Where a text stands in a text

A search finds nothing just if the pattern stands nowhere. What the search for the first place finds
depends on nothing after that place, and what the search for the last place finds depends on nothing
before it, so a text may be changed on the other side without moving the place. A character that is
not in the pattern parts a text into two that can be searched for themselves.
-/
namespace Bundler.Text
variable {pat cs xs ys before after : List Char} {c p : Char}

theorem cutFirst_eq_none_iff : cutFirst pat cs = none ↔ ¬ pat <:+: cs := by
  induction cs with
  | nil =>
    rw [cutFirst, List.infix_nil]
    split <;> simp_all
  | cons c cs ih =>
    rw [cutFirst, List.infix_cons_iff, ← List.isPrefixOf_iff_prefix]
    split
    · simp_all
    · rw [Option.map_eq_none_iff, ih]
      simp_all

theorem cutLast_eq_none_iff : cutLast pat cs = none ↔ ¬ pat <:+: cs := by
  induction cs with
  | nil =>
    rw [cutLast, List.infix_nil]
    split <;> simp_all
  | cons c cs ih =>
    rw [cutLast, List.infix_cons_iff, ← List.isPrefixOf_iff_prefix]
    split
    · rename_i found hfound
      have hsome : cutLast pat cs ≠ none := by simp [hfound]
      simp_all
    · rename_i hnone
      have hrest := ih.mp hnone
      split <;> simp_all

/-- Where the pattern stands behind the text, that is its first place. -/
def NoneBefore (pat before : List Char) : Prop := ¬ pat <:+: before ++ pat.dropLast

/-- Where the pattern stands in front of the text, that is its last place. -/
def NoneAfter (pat after : List Char) : Prop := ¬ pat <:+: (pat ++ after).tail

theorem not_infix_dropLast (hpat : pat ≠ []) : ¬ pat <:+: pat.dropLast := by
  intro h
  have hlength := h.length_le
  have hpos := List.length_pos_iff.mpr hpat
  rw [List.length_dropLast] at hlength
  omega

theorem noneBefore_nil (hpat : pat ≠ []) : NoneBefore pat [] := not_infix_dropLast hpat

/-- Whether the pattern begins at a character in front of it does not depend on what comes after. -/
theorem noneBefore_cons_iff (after : List Char) : NoneBefore pat (c :: before) ↔
    ¬ pat <+: c :: (before ++ pat ++ after) ∧ NoneBefore pat before := by
  have hlast : pat.dropLast <+: pat := List.dropLast_prefix pat
  have hlead : c :: (before ++ pat.dropLast) <+: c :: (before ++ pat ++ after) := by
    rw [List.cons_prefix_cons, List.append_assoc, List.prefix_append_right_inj]
    exact ⟨rfl, hlast.trans (List.prefix_append pat after)⟩
  have hlength : pat.length ≤ (c :: (before ++ pat.dropLast)).length := by
    rw [List.length_cons, List.length_append, List.length_dropLast]
    omega
  have hbegins : pat <+: c :: (before ++ pat.dropLast) ↔ pat <+: c :: (before ++ pat ++ after) :=
    ⟨fun h => h.trans hlead, fun h => List.prefix_of_prefix_length_le h hlead hlength⟩
  unfold NoneBefore
  rw [List.cons_append, List.infix_cons_iff, not_or, hbegins]

/-- A text without the first character of the pattern can be left out in front. -/
theorem infix_append_iff_of_not_mem (h : p ∉ xs) : p :: pat <:+: xs ++ ys ↔ p :: pat <:+: ys := by
  induction xs with
  | nil => rfl
  | cons x xs ih =>
    obtain ⟨hx, hxs⟩ := not_or.mp (mt List.mem_cons.mpr h)
    have hbegins : ¬ p :: pat <+: x :: (xs ++ ys) := fun hp => hx (List.cons_prefix_cons.mp hp).1
    rw [List.cons_append, List.infix_cons_iff, ih hxs, or_iff_right hbegins]

theorem noneBefore_of_head_not_mem (h : p ∉ before) : NoneBefore (p :: pat) before :=
  mt (infix_append_iff_of_not_mem h).mp (not_infix_dropLast (List.cons_ne_nil p pat))

theorem NoneBefore.length_le {front back : List Char} (h : NoneBefore pat before)
    (heq : before ++ pat ++ after = front ++ pat ++ back) : before.length ≤ front.length := by
  induction front generalizing before with
  | nil =>
    cases before with
    | nil => exact le_rfl
    | cons c before =>
      have hbegins : pat <+: c :: (before ++ pat ++ after) := ⟨back, heq.symm⟩
      exact absurd hbegins ((noneBefore_cons_iff after).mp h).1
  | cons d front ih =>
    cases before with
    | nil => exact Nat.zero_le _
    | cons c before =>
      obtain ⟨-, hrest⟩ := List.cons.inj heq
      exact Nat.succ_le_succ (ih ((noneBefore_cons_iff after).mp h).2 hrest)

theorem cutFirst_append (hpat : pat ≠ []) (h : NoneBefore pat before) (after : List Char) :
    cutFirst pat (before ++ pat ++ after) = some (before, after) := by
  induction before with
  | nil =>
    obtain ⟨p, ps, rfl⟩ := List.exists_cons_of_ne_nil hpat
    have hbegins : (p :: ps).isPrefixOf (p :: (ps ++ after)) = true :=
      List.isPrefixOf_iff_prefix.mpr (List.prefix_append (p :: ps) after)
    show cutFirst (p :: ps) (p :: (ps ++ after)) = _
    rw [cutFirst, if_pos hbegins]
    simp
  | cons c before ih =>
    obtain ⟨hbegins, hbefore⟩ := (noneBefore_cons_iff after).mp h
    show cutFirst pat (c :: (before ++ pat ++ after)) = _
    rw [cutFirst, if_neg (mt List.isPrefixOf_iff_prefix.mp hbegins), ih hbefore]
    rfl

/-- The first place depends on nothing that comes after it. -/
theorem cutFirst_eq_some_iff (hpat : pat ≠ []) : cutFirst pat cs = some (before, after) ↔
    cs = before ++ pat ++ after ∧ NoneBefore pat before := by
  constructor
  · intro h
    refine ⟨cutFirst_eq_some h, ?_⟩
    induction cs generalizing before with
    | nil =>
      rw [cutFirst, if_neg hpat] at h
      cases h
    | cons c cs ih =>
      rw [cutFirst] at h
      split at h
      · cases h
        exact noneBefore_nil hpat
      · rename_i hbegins
        obtain ⟨⟨front, rest⟩, hrest, hfound⟩ := Option.map_eq_some_iff.mp h
        cases hfound
        refine (noneBefore_cons_iff rest).mpr ⟨?_, ih hrest⟩
        rwa [← cutFirst_eq_some hrest, ← List.isPrefixOf_iff_prefix]
  · rintro ⟨rfl, h⟩
    exact cutFirst_append hpat h after

theorem cutLast_append (hpat : pat ≠ []) (h : NoneAfter pat after) (before : List Char) :
    cutLast pat (before ++ pat ++ after) = some (before, after) := by
  induction before with
  | nil =>
    obtain ⟨p, ps, rfl⟩ := List.exists_cons_of_ne_nil hpat
    have hbegins : (p :: ps).isPrefixOf (p :: (ps ++ after)) = true :=
      List.isPrefixOf_iff_prefix.mpr (List.prefix_append (p :: ps) after)
    have hrest : cutLast (p :: ps) (ps ++ after) = none := cutLast_eq_none_iff.mpr h
    show cutLast (p :: ps) (p :: (ps ++ after)) = _
    rw [cutLast, hrest]
    simp [hbegins]
  | cons c before ih =>
    show cutLast pat (c :: (before ++ pat ++ after)) = _
    rw [cutLast, ih]

/-- The last place depends on nothing that comes before it. -/
theorem cutLast_eq_some_iff (hpat : pat ≠ []) : cutLast pat cs = some (before, after) ↔
    cs = before ++ pat ++ after ∧ NoneAfter pat after := by
  constructor
  · intro h
    have hcs := cutLast_eq_some h
    refine ⟨hcs, ?_⟩
    induction cs generalizing before with
    | nil =>
      rw [cutLast, if_neg hpat] at h
      cases h
    | cons c cs ih =>
      rw [cutLast] at h
      split at h
      · rename_i found hfound
        cases h
        exact ih hfound (cutLast_eq_some hfound)
      · rename_i hnone
        split at h
        · cases h
          have htail : cs = (pat ++ (c :: cs).drop pat.length).tail := congrArg List.tail hcs
          unfold NoneAfter
          rw [← htail]
          exact cutLast_eq_none_iff.mp hnone
        · cases h
  · rintro ⟨rfl, h⟩
    exact cutLast_append hpat h before

theorem prefix_of_prefix_append_cons (xs : List Char) (hc : c ∉ pat) (h : pat <+: xs ++ c :: ys) :
    pat <+: xs := by
  induction xs generalizing pat with
  | nil =>
    rcases List.prefix_cons_iff.mp h with rfl | ⟨rest, rfl, -⟩
    · exact List.nil_prefix
    · exact absurd List.mem_cons_self hc
  | cons x xs ih =>
    rcases List.prefix_cons_iff.mp h with rfl | ⟨rest, rfl, hrest⟩
    · exact List.nil_prefix
    · exact List.cons_prefix_cons.mpr ⟨rfl, ih (fun hmem => hc (List.mem_cons_of_mem x hmem)) hrest⟩

/-- What has no `c` stands on one side of a `c`. -/
theorem infix_append_cons_iff (hc : c ∉ pat) :
    pat <:+: xs ++ c :: ys ↔ pat <:+: xs ∨ pat <:+: ys := by
  constructor
  · intro h
    induction xs with
    | nil =>
      rcases List.infix_cons_iff.mp h with hbegins | hrest
      · exact .inl (prefix_of_prefix_append_cons [] hc hbegins).isInfix
      · exact .inr hrest
    | cons x xs ih =>
      rcases List.infix_cons_iff.mp h with hbegins | hrest
      · exact .inl (prefix_of_prefix_append_cons (x :: xs) hc hbegins).isInfix
      · exact (ih hrest).imp_left fun hxs => List.infix_cons hxs
  · rintro (h | h)
    · exact h.trans (List.prefix_append xs (c :: ys)).isInfix
    · exact h.trans ((List.suffix_cons c ys).trans (List.suffix_append xs (c :: ys))).isInfix

end Bundler.Text
