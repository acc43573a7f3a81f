import Bundler.Proofs.Escaping
/-!
# Titles of pages

A template alone decides where a title goes, and all that is not in a replaced title element stays
around it. An escaped title holds no tag. So the element that is put into a page is its first title
element, and a title that is put there later takes the place of the one before.
-/
namespace Bundler.Html

open Text

variable {html before old after : List Char}

def titleStart : List Char := "<title>".toList

def titleEnd : List Char := "</title>".toList

def headEnd : List Char := "</head>".toList

/-- A title is opened and, later on, closed. -/
def HasTitle (html : List Char) : Prop :=
  ∃ before old after, html = before ++ titleStart ++ (old ++ titleEnd ++ after)

/-- Every title that is opened is closed later on. -/
def TitlesClose (html : List Char) : Prop :=
  ∀ before after, html = before ++ titleStart ++ after → titleEnd <:+: after

theorem titlesClose_iff : TitlesClose html ↔
    ∀ rest ∈ html.tails, titleStart <+: rest → titleEnd <:+: rest.drop titleStart.length := by
  constructor
  · rintro h rest hrest ⟨after, rfl⟩
    obtain ⟨before, hhtml⟩ := (List.mem_tails _ _).mp hrest
    rw [List.drop_left]
    exact h before after (by rw [List.append_assoc, hhtml])
  · intro h before after hhtml
    have hrest : titleStart ++ after ∈ html.tails :=
      (List.mem_tails _ _).mpr ⟨before, by rw [hhtml, List.append_assoc]⟩
    have hend := h _ hrest (List.prefix_append titleStart after)
    rwa [List.drop_left] at hend

instance (html : List Char) : Decidable (TitlesClose html) := decidable_of_iff' _ titlesClose_iff

theorem TitlesClose.hasTitle (h : TitlesClose html) (hstart : titleStart <:+: html) :
    HasTitle html := by
  obtain ⟨before, after, rfl⟩ := hstart
  obtain ⟨old, rest, rfl⟩ := h before after rfl
  exact ⟨before, old, rest, rfl⟩

theorem cutTitle_eq (html : List Char) : cutTitle html = (cutFirst titleStart html).bind fun p =>
    (cutFirst titleEnd p.2).map fun q => (p.1, q.2) := by
  show (cutFirst titleStart html).bind _ = _
  cases cutFirst titleStart html with
  | none => rfl
  | some p =>
    show (cutFirst titleEnd p.2).bind _ = (cutFirst titleEnd p.2).map _
    cases cutFirst titleEnd p.2 <;> rfl

/-- The title element that is replaced goes from the first start of a title to the next end. -/
theorem cutTitle_eq_some_iff : cutTitle html = some (before, after) ↔
    ∃ old, html = before ++ titleStart ++ (old ++ titleEnd ++ after) ∧
      NoneBefore titleStart before ∧ NoneBefore titleEnd old := by
  rw [cutTitle_eq]
  constructor
  · intro h
    obtain ⟨⟨front, rest⟩, hstart, h⟩ := Option.bind_eq_some_iff.mp h
    obtain ⟨⟨old, back⟩, hend, h⟩ := Option.map_eq_some_iff.mp h
    cases h
    obtain ⟨hhtml, hbefore⟩ := (cutFirst_eq_some_iff (by decide)).mp hstart
    obtain ⟨hrest, hold⟩ := (cutFirst_eq_some_iff (by decide)).mp hend
    exact ⟨old, hrest ▸ hhtml, hbefore, hold⟩
  · rintro ⟨old, rfl, hbefore, hold⟩
    rw [cutFirst_append (by decide) hbefore, Option.bind_some, cutFirst_append (by decide) hold]
    rfl

theorem cutTitle_eq_none_iff : cutTitle html = none ↔ ¬ HasTitle html := by
  constructor
  · rintro hnone ⟨front, old, back, hhtml⟩
    cases hstart : cutFirst titleStart html with
    | none => exact cutFirst_eq_none_iff.mp hstart ⟨front, _, hhtml.symm⟩
    | some p =>
      obtain ⟨hfirst, hbefore⟩ := (cutFirst_eq_some_iff (by decide)).mp hstart
      rw [cutTitle_eq, hstart, Option.bind_some, Option.map_eq_none_iff] at hnone
      -- The title that is there starts no earlier than the first, so its end comes after that.
      have hlength := congrArg List.length (hfirst.symm.trans hhtml)
      have hle := hbefore.length_le (hfirst.symm.trans hhtml)
      have hsuffix : old ++ titleEnd ++ back <:+ p.2 :=
        List.suffix_of_suffix_length_le ⟨_, hhtml.symm⟩ ⟨_, hfirst.symm⟩ (by
          simp only [List.length_append] at hlength hle ⊢
          omega)
      exact cutFirst_eq_none_iff.mp hnone ((List.infix_append old titleEnd back).trans hsuffix.isInfix)
  · intro hnone
    cases hcut : cutTitle html with
    | none => rfl
    | some place =>
      obtain ⟨old, hhtml, -, -⟩ := cutTitle_eq_some_iff.mp hcut
      exact absurd ⟨place.1, old, place.2, hhtml⟩ hnone

/-- What comes before and after a title: what is around the element that it replaces, or else the
whole template, cut before the end of the head and with a line for the title, or in one piece. -/
inductive Around (html : List Char) : List Char → List Char → Prop
  | element {before old after : List Char} :
      html = before ++ titleStart ++ (old ++ titleEnd ++ after) → NoneBefore titleStart before →
      NoneBefore titleEnd old → Around html before after
  | head {before after : List Char} : ¬ HasTitle html → html = before ++ headEnd ++ after →
      NoneBefore headEnd before → Around html (before ++ [' ', ' ']) ('\n' :: headEnd ++ after)
  | front : ¬ HasTitle html → ¬ headEnd <:+: html → Around html [] ('\n' :: html)

theorem around_titlePlace (html : List Char) :
    Around html (titlePlace html).1 (titlePlace html).2 := by
  unfold titlePlace
  split
  · rename_i place hcut
    obtain ⟨old, hhtml, hbefore, hold⟩ := cutTitle_eq_some_iff.mp hcut
    exact .element hhtml hbefore hold
  · rename_i hnone
    have htitle := cutTitle_eq_none_iff.mp hnone
    split
    · rename_i before after hcut
      obtain ⟨hhtml, hbefore⟩ := (cutFirst_eq_some_iff (by decide)).mp hcut
      exact .head htitle hhtml hbefore
    · rename_i hcut
      exact .front htitle (cutFirst_eq_none_iff.mp hcut)

theorem Around.noneBefore (h : Around html before after) (hclose : TitlesClose html) :
    NoneBefore titleStart before := by
  cases h with
  | element _ hbefore _ => exact hbefore
  | @head front back htitle hhtml _ =>
    have hstart := mt hclose.hasTitle htitle
    have hfront : ¬ titleStart <:+: front := fun h => hstart <| by
      rw [hhtml, List.append_assoc]
      exact h.trans (List.prefix_append front _).isInfix
    have hspace : ' ' ∉ titleStart := by decide
    show ¬ titleStart <:+: front ++ [' ', ' '] ++ titleStart.dropLast
    rw [List.append_assoc]
    show ¬ titleStart <:+: front ++ ' ' :: ([] ++ ' ' :: titleStart.dropLast)
    rw [infix_append_cons_iff hspace, infix_append_cons_iff hspace]
    exact not_or.mpr ⟨hfront, not_or.mpr ⟨by decide, not_infix_dropLast (by decide)⟩⟩
  | front _ _ => exact noneBefore_nil (by decide)

/-- The element of a title is found again, whatever the title. -/
theorem titlePlace_titleElement (h : NoneBefore titleStart before) (title after : List Char) :
    titlePlace (before ++ titleElement title ++ after) = (before, after) := by
  have hescaped : NoneBefore titleEnd (escape title) := by
    rw [show titleEnd = '<' :: "/title>".toList from rfl]
    exact noneBefore_of_head_not_mem (not_mem_escape (by decide) title)
  have hcut : cutTitle (before ++ titleElement title ++ after) = some (before, after) := by
    refine cutTitle_eq_some_iff.mpr ⟨escape title, ?_, h, hescaped⟩
    show before ++ (titleStart ++ escape title ++ titleEnd) ++ after = _
    simp only [List.append_assoc]
  rw [titlePlace, hcut]

theorem injectTitle_injectTitle (h : TitlesClose html) (s t : List Char) :
    injectTitle (injectTitle html s) t = injectTitle html t := by
  have hplace := titlePlace_titleElement ((around_titlePlace html).noneBefore h) s
    (titlePlace html).2
  show injectTitle ((titlePlace html).1 ++ titleElement s ++ (titlePlace html).2) t = _
  rw [injectTitle, hplace]
  rfl

/-- If no title is left open, the last title that is put into a template wins. The template alone
decides what comes before and after the title, and nothing but a replaced title is lost. -/
theorem injectTitle_last_wins (html : List Char) :
    (TitlesClose html → ∀ s t, injectTitle (injectTitle html s) t = injectTitle html t) ∧
      ∃ before after, Around html before after ∧ ∀ title,
        injectTitle html title = before ++ (titleStart ++ escape title ++ titleEnd) ++ after :=
  ⟨injectTitle_injectTitle, _, _, around_titlePlace html, fun _ => rfl⟩

/-- A page with a title, and with another one that is inside a comment. -/
def titledPage : List Char :=
  "<head><title>Old</title><!-- <title>Older</title> --></head>".toList

theorem titledPage_last_wins : TitlesClose titledPage ∧
    injectTitle (injectTitle titledPage "</title> & more".toList) "New".toList =
      injectTitle titledPage "New".toList := by
  have hclose : TitlesClose titledPage := by decide +kernel
  exact ⟨hclose, (injectTitle_last_wins titledPage).1 hclose _ _⟩

end Bundler.Html
