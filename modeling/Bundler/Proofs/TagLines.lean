import Bundler.Proofs.Titles
/-!
# Tags of pages

Tags go before the last end of the body, each on a line of its own, or to the end of a template that
has none. In both cases they stand in their order, and the template is what is left without them.
Tags that are put in after others make the same page as all of them put in at once, unless there is
no body and the last of the others leaves no line to be ended.
-/
namespace Bundler.Html

open Text

variable {html text gap tag a b : List Char} {tags xs ys : List (List Char)}

def bodyEnd : List Char := "</body>".toList

theorem newline_not_mem_bodyEnd : '\n' ∉ bodyEnd := by decide

/-- At most the end of a line. -/
def IsGap (gap : List Char) : Prop := gap = [] ∨ gap = ['\n']

/-- A text in which the tags stand one after the other, with only gaps around them. -/
inductive Strung : List (List Char) → List Char → Prop
  | nil {gap : List Char} : IsGap gap → Strung [] gap
  | cons {gap tag text : List Char} {tags : List (List Char)} : IsGap gap → Strung tags text →
      Strung (tag :: tags) (gap ++ tag ++ text)

/-- A text whose last line has begun and is not ended. -/
def Unended (text : List Char) : Prop := text ≠ [] ∧ text.getLast? ≠ some '\n'

instance (text : List Char) : Decidable (Unended text) :=
  inferInstanceAs (Decidable (_ ∧ _))

theorem not_unended_newline (text : List Char) : ¬ Unended (text ++ ['\n']) := by
  simp [Unended]

theorem unended_append (hb : b ≠ []) : Unended (a ++ b) ↔ Unended b := by
  unfold Unended
  rw [List.getLast?_append_of_ne_nil a hb]
  simp [hb]

/-- What a tag adds to a text. -/
def addition (text tag : List Char) : List Char := if Unended text then '\n' :: tag else tag

theorem appendTag_eq (text tag : List Char) : appendTag text tag = text ++ addition text tag := by
  have hended : (text = [] ∨ text.getLast? = some '\n') ↔ ¬ Unended text := by
    unfold Unended
    tauto
  unfold appendTag addition
  by_cases h : Unended text
  · rw [if_neg (mt hended.mp (not_not_intro h)), if_pos h]
  · rw [if_pos (hended.mpr h), if_neg h]

theorem unended_appendTag : Unended (appendTag text tag) ↔ Unended tag := by
  rw [appendTag_eq, addition]
  by_cases htag : tag = []
  · subst htag
    have hempty : ¬ Unended [] := fun h => h.1 rfl
    split
    · exact iff_of_false (not_unended_newline text) hempty
    · rename_i htext
      rw [List.append_nil]
      exact iff_of_false htext hempty
  · split
    · rw [unended_append (List.cons_ne_nil _ _)]
      exact unended_append (a := ['\n']) htag
    · exact unended_append htag

/-- Of a text, what tags add to it depends only on whether its last line is ended. -/
theorem foldl_appendTag_eq (tags : List (List Char)) (h : Unended a ↔ Unended b) :
    ∃ added, tags.foldl appendTag a = a ++ added ∧ tags.foldl appendTag b = b ++ added := by
  induction tags generalizing a b with
  | nil => exact ⟨[], (List.append_nil a).symm, (List.append_nil b).symm⟩
  | cons tag tags ih =>
    have hafter : Unended (appendTag a tag) ↔ Unended (appendTag b tag) :=
      unended_appendTag.trans unended_appendTag.symm
    obtain ⟨added, ha, hb⟩ := ih hafter
    have hsame : addition b tag = addition a tag := by simp only [addition, h]
    refine ⟨addition a tag ++ added, ?_, ?_⟩
    · rw [List.foldl_cons, ha, appendTag_eq, List.append_assoc]
    · rw [List.foldl_cons, hb, appendTag_eq, hsame, List.append_assoc]

theorem isGap_of_addition (text tag : List Char) :
    ∃ gap, IsGap gap ∧ addition text tag = gap ++ tag := by
  unfold addition
  split
  · exact ⟨['\n'], .inr rfl, rfl⟩
  · exact ⟨[], .inl rfl, rfl⟩

theorem strung_foldl_appendTag (tags : List (List Char)) (text : List Char) :
    ∃ added, tags.foldl appendTag text ++ ['\n'] = text ++ added ∧ Strung tags added := by
  induction tags generalizing text with
  | nil => exact ⟨['\n'], rfl, .nil (.inr rfl)⟩
  | cons tag tags ih =>
    obtain ⟨added, hadded, hstrung⟩ := ih (appendTag text tag)
    obtain ⟨gap, hgap, heq⟩ := isGap_of_addition text tag
    refine ⟨gap ++ tag ++ added, ?_, .cons hgap hstrung⟩
    rw [List.foldl_cons, hadded, appendTag_eq, heq, List.append_assoc]

theorem not_infix_appendTag (htext : ¬ bodyEnd <:+: text) (htag : ¬ bodyEnd <:+: tag) :
    ¬ bodyEnd <:+: appendTag text tag := by
  have hparted : ¬ bodyEnd <:+: text ++ '\n' :: tag := by
    rw [infix_append_cons_iff newline_not_mem_bodyEnd]
    exact not_or.mpr ⟨htext, htag⟩
  unfold appendTag
  split
  · rename_i hended
    rcases hended with rfl | hlast
    · exact htag
    · obtain ⟨front, rfl⟩ := List.getLast?_eq_some_iff.mp hlast
      rw [List.append_assoc]
      show ¬ bodyEnd <:+: front ++ '\n' :: tag
      rw [infix_append_cons_iff newline_not_mem_bodyEnd] at htext ⊢
      exact not_or.mpr ⟨(not_or.mp htext).1, htag⟩
  · exact hparted

theorem not_infix_foldl_appendTag (htext : ¬ bodyEnd <:+: text)
    (htags : ∀ tag ∈ tags, ¬ bodyEnd <:+: tag) : ¬ bodyEnd <:+: tags.foldl appendTag text := by
  induction tags generalizing text with
  | nil => exact htext
  | cons tag tags ih =>
    obtain ⟨htag, hrest⟩ := List.forall_mem_cons.mp htags
    exact ih (not_infix_appendTag htext htag) hrest

/-- Tags go directly before the last end of the body, each on a line of its own, or else to the
end of the template. -/
inductive Inserted (html : List Char) (tags : List (List Char)) : List Char → Prop
  | inBody {before after : List Char} : html = before ++ bodyEnd ++ after →
      NoneAfter bodyEnd after →
      Inserted html tags (before ++ tags.flatMap tagLine ++ bodyEnd ++ after)
  | atEnd {added : List Char} : ¬ bodyEnd <:+: html → Strung tags added →
      Inserted html tags (html ++ added)

theorem injectTags_of_body {before after : List Char} (h : NoneAfter bodyEnd after)
    (tags : List (List Char)) : injectTags (before ++ bodyEnd ++ after) tags =
      before ++ tags.flatMap tagLine ++ bodyEnd ++ after := by
  unfold injectTags
  split
  · rename_i hnil
    rw [hnil, List.flatMap_nil, List.append_nil]
  · rw [show "</body>".toList = bodyEnd from rfl, cutLast_append (by decide) h]

theorem injectTags_of_no_body (h : ¬ bodyEnd <:+: html) (htags : tags ≠ []) :
    injectTags html tags = tags.foldl appendTag html ++ ['\n'] := by
  have hcut : cutLast "</body>".toList html = none := cutLast_eq_none_iff.mpr h
  rw [injectTags, if_neg htags, hcut]

theorem inserted_injectTags (html : List Char) (tags : List (List Char)) :
    Inserted html tags (injectTags html tags) := by
  cases hcut : cutLast bodyEnd html with
  | some place =>
    obtain ⟨rfl, hafter⟩ := (cutLast_eq_some_iff (by decide)).mp hcut
    rw [injectTags_of_body hafter]
    exact .inBody rfl hafter
  | none =>
    have hbody := cutLast_eq_none_iff.mp hcut
    by_cases htags : tags = []
    · subst htags
      have hnone : Inserted html [] (html ++ []) := .atEnd hbody (.nil (.inl rfl))
      rwa [List.append_nil] at hnone
    · obtain ⟨added, hadded, hstrung⟩ := strung_foldl_appendTag tags html
      rw [injectTags_of_no_body hbody htags, hadded]
      exact .atEnd hbody hstrung

theorem foldl_appendTag_newline_iff (htags : tags ≠ []) :
    tags.foldl appendTag (text ++ ['\n']) = tags.foldl appendTag text ↔ Unended text := by
  have hended := not_unended_newline text
  constructor
  · intro heq
    by_contra htext
    obtain ⟨added, hline, hnone⟩ := foldl_appendTag_eq tags (iff_of_false hended htext)
    rw [hline, hnone] at heq
    have hlength := congrArg List.length heq
    simp at hlength
  · intro htext
    obtain ⟨tag, tags, rfl⟩ := List.exists_cons_of_ne_nil htags
    have hsame : appendTag (text ++ ['\n']) tag = appendTag text tag := by
      rw [appendTag_eq, appendTag_eq, addition, addition, if_neg hended, if_pos htext]
      exact List.append_assoc text ['\n'] tag
    rw [List.foldl_cons, List.foldl_cons, hsame]

theorem injectTags_injectTags_of_body (h : bodyEnd <:+: html) (xs ys : List (List Char)) :
    injectTags (injectTags html xs) ys = injectTags html (xs ++ ys) := by
  cases hcut : cutLast bodyEnd html with
  | none => exact absurd h (cutLast_eq_none_iff.mp hcut)
  | some place =>
    obtain ⟨rfl, hafter⟩ := (cutLast_eq_some_iff (by decide)).mp hcut
    rw [injectTags_of_body hafter, injectTags_of_body hafter, injectTags_of_body hafter,
      List.flatMap_append, List.append_assoc place.1]

/-- Without a body, the tags that are put in later begin on a line of their own in any case.
Together with the others they do so if those leave a line to be ended. -/
theorem injectTags_injectTags_iff_of_no_body (h : ¬ bodyEnd <:+: html)
    (hxs : ∀ x ∈ xs, ¬ bodyEnd <:+: x) (hlast : xs.getLast? = some tag) (hys : ys ≠ []) :
    injectTags (injectTags html xs) ys = injectTags html (xs ++ ys) ↔ Unended tag := by
  have hne : xs ≠ [] := List.getLast?_isSome.mp (hlast ▸ rfl)
  have hended : Unended (xs.foldl appendTag html) ↔ Unended tag := by
    obtain ⟨front, rfl⟩ := List.getLast?_eq_some_iff.mp hlast
    rw [List.foldl_append]
    exact unended_appendTag
  have hbody : ¬ bodyEnd <:+: xs.foldl appendTag html ++ ['\n'] := by
    rw [infix_append_cons_iff newline_not_mem_bodyEnd]
    exact not_or.mpr ⟨not_infix_foldl_appendTag h hxs, by decide⟩
  rw [injectTags_of_no_body h hne, injectTags_of_no_body hbody hys,
    injectTags_of_no_body h (List.append_ne_nil_of_left_ne_nil hne ys), List.foldl_append,
    List.append_left_inj, foldl_appendTag_newline_iff hys, hended]

/-- The body does not end in the tag, and the tag does not end its line. -/
def IsTag (tag : List Char) : Prop := ¬ bodyEnd <:+: tag ∧ tag.getLast? ≠ some '\n'

instance (tag : List Char) : Decidable (IsTag tag) := inferInstanceAs (Decidable (_ ∧ _))

theorem isTag_scriptTag (src : List Char) : IsTag (scriptTag src) ∧ scriptTag src ≠ [] := by
  have hopen : '<' ∉ "script defer src=\"".toList ++ escape src ++ "\">".toList := by
    have hescape : '<' ∉ escape src := not_mem_escape (by decide) src
    simp_all
  have hclose : "\"></script>".toList = "\">".toList ++ "</script>".toList := by decide
  have htag : scriptTag src =
      '<' :: ("script defer src=\"".toList ++ escape src ++ "\">".toList ++ "</script>".toList) := by
    rw [List.append_assoc, ← hclose]
    rfl
  refine ⟨⟨?_, ?_⟩, ?_⟩
  · rw [htag, List.infix_cons_iff]
    refine not_or.mpr ⟨?_, ?_⟩
    · rintro ⟨rest, hrest⟩
      have hsecond : '/' = 's' := (List.cons.inj (List.cons.inj hrest).2).1
      exact absurd hsecond (by decide)
    · rw [show bodyEnd = '<' :: "/body>".toList from rfl, infix_append_iff_of_not_mem hopen]
      decide
  · unfold scriptTag
    rw [List.getLast?_append_of_ne_nil _ (by decide)]
    decide
  · rw [htag]
    exact List.cons_ne_nil _ _

/-- Tags compose with tags that are put in later, unless all are put to the end of a template and
the last of the first ones is empty. -/
theorem injectTags_composes (hxs : ∀ x ∈ xs, IsTag x) (html : List Char) (ys : List (List Char)) :
    (injectTags (injectTags html xs) ys = injectTags html (xs ++ ys) ↔
      bodyEnd <:+: html ∨ ys = [] ∨ xs.getLast? ≠ some []) ∧
    (∀ tags, Inserted html tags (injectTags html tags)) ∧
    ∀ src, IsTag (scriptTag src) ∧ scriptTag src ≠ [] := by
  refine ⟨?_, inserted_injectTags html, isTag_scriptTag⟩
  by_cases hbody : bodyEnd <:+: html
  · exact iff_of_true (injectTags_injectTags_of_body hbody xs ys) (.inl hbody)
  rw [or_iff_right hbody]
  by_cases hys : ys = []
  · subst hys
    refine iff_of_true ?_ (.inl rfl)
    rw [List.append_nil]
    rfl
  rw [or_iff_right hys]
  cases hlast : xs.getLast? with
  | none =>
    obtain rfl := List.getLast?_eq_none_iff.mp hlast
    exact iff_of_true rfl (Option.some_ne_none _).symm
  | some tag =>
    have htag := (hxs tag (List.mem_of_getLast? hlast)).2
    rw [injectTags_injectTags_iff_of_no_body hbody (fun x hx => (hxs x hx).1) hlast hys, Unended,
      and_iff_left htag, Ne, Ne, Option.some_inj]

theorem scriptTags_compose : (∀ x ∈ [scriptTag "a.js".toList], IsTag x) ∧
    injectTags (injectTags "<p>bare</p>".toList [scriptTag "a.js".toList])
        [scriptTag "b.js".toList] =
      injectTags "<p>bare</p>".toList [scriptTag "a.js".toList, scriptTag "b.js".toList] := by
  have hxs : ∀ x ∈ [scriptTag "a.js".toList], IsTag x := by decide +kernel
  exact ⟨hxs, (injectTags_composes hxs _ _).1.mpr (by decide +kernel)⟩

/-- An empty tag ends neither the body nor a line, and what follows it in one go stays on its
line. -/
theorem empty_tag_does_not_compose : (∀ tag ∈ [[], ['y']], IsTag tag) ∧
    injectTags (injectTags [] [[]]) [['y']] ≠ injectTags [] ([[]] ++ [['y']]) := by
  decide

end Bundler.Html
