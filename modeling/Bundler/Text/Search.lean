/-!
# Finding a text in a text

The first and the last place where one text stands in another, given by what is before it and what
is after it.
-/
namespace Bundler.Text

/-- What is before and after the first `pat`. -/
def cutFirst (pat : List Char) : List Char → Option (List Char × List Char)
  | [] => if pat = [] then some ([], []) else none
  | c :: cs =>
    if pat.isPrefixOf (c :: cs) then some ([], (c :: cs).drop pat.length)
    else (cutFirst pat cs).map fun p => (c :: p.1, p.2)

def cutLast (pat : List Char) : List Char → Option (List Char × List Char)
  | [] => if pat = [] then some ([], []) else none
  | c :: cs =>
    match cutLast pat cs with
    | some p => some (c :: p.1, p.2)
    | none =>
      if pat.isPrefixOf (c :: cs) then some ([], (c :: cs).drop pat.length) else none

theorem cutFirst_eq_some {pat cs before after : List Char}
    (h : cutFirst pat cs = some (before, after)) : cs = before ++ pat ++ after := by
  induction cs generalizing before with
  | nil => simp only [cutFirst] at h; split at h <;> simp_all
  | cons c cs ih =>
    unfold cutFirst at h
    split at h
    · rename_i hp
      simp only [Option.some.injEq, Prod.mk.injEq] at h
      obtain ⟨rfl, rfl⟩ := h
      obtain ⟨t, ht⟩ := List.isPrefixOf_iff_prefix.1 hp
      simp [← ht]
    · obtain ⟨p, hp, he⟩ := Option.map_eq_some_iff.1 h
      simp only [Prod.mk.injEq] at he
      obtain ⟨rfl, rfl⟩ := he
      simp [ih hp]

theorem cutLast_eq_some {pat cs before after : List Char}
    (h : cutLast pat cs = some (before, after)) : cs = before ++ pat ++ after := by
  induction cs generalizing before with
  | nil => simp only [cutLast] at h; split at h <;> simp_all
  | cons c cs ih =>
    unfold cutLast at h
    split at h
    · rename_i p hp
      simp only [Option.some.injEq, Prod.mk.injEq] at h
      obtain ⟨rfl, rfl⟩ := h
      simp [ih hp]
    · split at h
      · rename_i hp
        simp only [Option.some.injEq, Prod.mk.injEq] at h
        obtain ⟨rfl, rfl⟩ := h
        obtain ⟨t, ht⟩ := List.isPrefixOf_iff_prefix.1 hp
        simp [← ht]
      · simp at h

end Bundler.Text
