import Bundler.Html.Template
import Bundler.Proofs.Occurrences
/-!
# Escaped texts

An escaped text has no character that ends an attribute or begins or ends a tag, and each `&` in it
begins an entity. Entities do not overlap, so putting their characters back from left to right gives
the text again, also where it looks like an entity itself. Hence the element of a script is closed
where it is meant to be, whatever its source, and can be read again.
-/
namespace Bundler.Html

open Text

variable {s t before after : List Char} {c : Char} {e : List Char × Char}

/-- The texts that stand for characters, each with its character. -/
def entities : List (List Char × Char) :=
  [("&amp;".toList, '&'), ("&lt;".toList, '<'), ("&gt;".toList, '>'), ("&quot;".toList, '"')]

/-- The characters that end an attribute or begin or end a tag. -/
def marks : List Char := ['<', '>', '"']

/-- The entity that a text begins with. -/
def entityAt? (cs : List Char) : Option (List Char × Char) :=
  entities.find? fun e => e.1.isPrefixOf cs

/-- Puts a character in the place of every entity, from left to right. What was put in is not looked
at again. -/
def unescape : List Char → List Char
  | [] => []
  | c :: cs =>
    match entityAt? (c :: cs) with
    | some e => e.2 :: unescape (cs.drop (e.1.length - 1))
    | none => c :: unescape cs
termination_by cs => cs.length
decreasing_by
  · simp only [List.length_drop, List.length_cons]
    omega
  · simp

/-- A character is written as its entity, or as it is if it has none. -/
theorem escapeChar_cases (c : Char) :
    (escapeChar c, c) ∈ entities ∨ escapeChar c = [c] ∧ c ≠ '&' ∧ c ∉ marks := by
  unfold escapeChar
  split
  case h_5 hamp hlt hgt hquot => simp_all [marks]
  all_goals simp [entities]

/-- An entity has its only `&` in front and no marks. -/
theorem entity_eq_cons (he : e ∈ entities) :
    ∃ name, e.1 = '&' :: name ∧ '&' ∉ name ∧ ∀ c ∈ marks, c ∉ name := by
  have hall : ∀ e ∈ entities,
      e.1 = '&' :: e.1.tail ∧ '&' ∉ e.1.tail ∧ ∀ c ∈ marks, c ∉ e.1.tail := by
    simp [entities, marks]
  exact ⟨_, hall e he⟩

theorem not_mem_escape (hc : c ∈ marks) (s : List Char) : c ∉ escape s := by
  intro h
  obtain ⟨d, -, hd⟩ := List.mem_flatMap.mp h
  rcases escapeChar_cases d with hentity | ⟨hself, -, hmark⟩
  · obtain ⟨name, hname, -, hmarks⟩ := entity_eq_cons hentity
    rw [show escapeChar d = '&' :: name from hname] at hd
    rcases List.mem_cons.mp hd with rfl | hin
    · exact absurd hc (by decide)
    · exact hmarks c hc hin
  · rw [hself, List.mem_singleton] at hd
    exact hmark (hd ▸ hc)

theorem escape_cons (c : Char) (s : List Char) : escape (c :: s) = escapeChar c ++ escape s := rfl

/-- Each `&` of an escaped text begins an entity. -/
theorem entity_of_escape_eq (h : escape s = before ++ '&' :: after) :
    ∃ e ∈ entities, e.1 <+: '&' :: after := by
  induction s generalizing before with
  | nil => simp [escape] at h
  | cons c s ih =>
    rw [escape_cons, List.append_eq_append_iff] at h
    rcases h with ⟨rest, -, hrest⟩ | ⟨rest, hrest, hafter⟩
    · exact ih hrest
    · -- The `&` is in what the first character is written as, or right after that.
      cases rest with
      | nil =>
        have hempty : escape s = [] ++ '&' :: after := hafter.symm
        exact ih hempty
      | cons d rest =>
        obtain ⟨rfl, rfl⟩ := List.cons.inj hafter
        rcases escapeChar_cases c with hentity | ⟨hself, hamp, -⟩
        · refine ⟨_, hentity, ?_⟩
          obtain ⟨name, hname, hnone, -⟩ := entity_eq_cons hentity
          cases before with
          | nil => exact hrest ▸ List.prefix_append ('&' :: rest) (escape s)
          | cons b before =>
            obtain ⟨-, rfl⟩ := List.cons.inj (hname.symm.trans hrest)
            simp at hnone
        · have hmem : '&' ∈ [c] := hself ▸ hrest ▸ List.mem_append_right before List.mem_cons_self
          exact absurd (List.mem_singleton.mp hmem).symm hamp

theorem entityAt?_append (he : e ∈ entities) (cs : List Char) : entityAt? (e.1 ++ cs) = some e := by
  have hall : ∀ e ∈ entities, entityAt? (e.1 ++ cs) = some e := by
    unfold entities
    simp only [List.forall_mem_cons]
    exact ⟨rfl, rfl, rfl, rfl, fun _ hnil => absurd hnil List.not_mem_nil⟩
  exact hall e he

theorem entityAt?_of_ne (hc : c ≠ '&') (cs : List Char) : entityAt? (c :: cs) = none := by
  rw [entityAt?, List.find?_eq_none]
  intro e he hprefix
  obtain ⟨name, hname, -, -⟩ := entity_eq_cons he
  rw [hname, List.isPrefixOf_iff_prefix, List.cons_prefix_cons] at hprefix
  exact hc hprefix.1.symm

theorem unescape_escapeChar (c : Char) (cs : List Char) :
    unescape (escapeChar c ++ cs) = c :: unescape cs := by
  rcases escapeChar_cases c with hentity | ⟨hself, hamp, -⟩
  · have hat : entityAt? (escapeChar c ++ cs) = some (escapeChar c, c) :=
      entityAt?_append hentity cs
    obtain ⟨name, hname, -, -⟩ := entity_eq_cons hentity
    have hname' : escapeChar c = '&' :: name := hname
    rw [hname', List.cons_append] at hat ⊢
    rw [unescape, hat]
    simp
  · rw [hself, List.singleton_append, unescape, entityAt?_of_ne hamp]

theorem unescape_escape (s : List Char) : unescape (escape s) = s := by
  induction s with
  | nil => rw [escape, List.flatMap_nil, unescape]
  | cons c s ih => rw [escape_cons, unescape_escapeChar, ih]

def scriptStart : List Char := "<script defer src=\"".toList

def scriptEnd : List Char := "</script>".toList

/-- Reads the element of a script as a page is read: its source goes up to the next quote, the tag
that holds it up to the next `>`, and the element up to the next end of a script. -/
def readScript (html : List Char) : Option (List Char × List Char) := do
  let (before, rest) ← cutFirst scriptStart html
  let (source, rest) ← cutFirst ['"'] rest
  let (attributes, rest) ← cutFirst ['>'] rest
  let (content, rest) ← cutFirst scriptEnd rest
  if before = [] ∧ attributes = [] ∧ content = [] then return (unescape source, rest) else none

theorem scriptTag_eq (src : List Char) :
    scriptTag src = scriptStart ++ (escape src ++ '"' :: '>' :: scriptEnd) :=
  List.append_assoc ..

theorem readScript_scriptTag (src rest : List Char) :
    readScript (scriptTag src ++ rest) = some (src, rest) := by
  have hstart : cutFirst scriptStart (scriptTag src ++ rest) =
      some ([], escape src ++ ['"'] ++ ('>' :: scriptEnd ++ rest)) := by
    have hnone : NoneBefore scriptStart [] := noneBefore_nil (by decide)
    have hcut := cutFirst_append (by decide) hnone
      (escape src ++ ['"'] ++ ('>' :: scriptEnd ++ rest))
    rw [← hcut, scriptTag_eq]
    simp
  have hquote : NoneBefore ['"'] (escape src) :=
    noneBefore_of_head_not_mem (not_mem_escape (by decide) src)
  have hsource : cutFirst ['"'] (escape src ++ ['"'] ++ ('>' :: scriptEnd ++ rest)) =
      some (escape src, '>' :: scriptEnd ++ rest) :=
    cutFirst_append (by decide) hquote ('>' :: scriptEnd ++ rest)
  have htag : cutFirst ['>'] ('>' :: scriptEnd ++ rest) = some ([], scriptEnd ++ rest) :=
    cutFirst_append (by decide) (noneBefore_nil (by decide)) (scriptEnd ++ rest)
  have hcontent : cutFirst scriptEnd (scriptEnd ++ rest) = some ([], rest) :=
    cutFirst_append (by decide) (noneBefore_nil (by decide)) rest
  rw [readScript, hstart]
  dsimp only [Option.bind_eq_bind, Option.bind_some]
  rw [hsource]
  dsimp only [Option.bind_some]
  rw [htag]
  dsimp only [Option.bind_some]
  rw [hcontent]
  simp [unescape_escape]

/-- What a text does not have stands in front of it or behind it. -/
theorem append_eq_append_cons (hc : c ∉ s) (h : s ++ t = before ++ c :: after) :
    ∃ rest, before = s ++ rest ∧ t = rest ++ c :: after := by
  rcases List.append_eq_append_iff.mp h with ⟨rest, hbefore, ht⟩ | ⟨rest, rfl, hafter⟩
  · exact ⟨rest, hbefore, ht⟩
  · cases rest with
    | nil => exact ⟨[], by simp, hafter.symm⟩
    | cons d rest =>
      obtain ⟨rfl, -⟩ := List.cons.inj hafter
      simp at hc

/-- The marks of the element of a script are those of its fixed parts. -/
theorem mark_place (hc : c ∈ marks) {src : List Char} (h : scriptTag src = before ++ c :: after) :
    before ++ [c] ∈ scriptStart.inits ∨ c :: after ∈ ('"' :: '>' :: scriptEnd).tails := by
  rw [List.mem_inits, List.mem_tails]
  rw [scriptTag_eq] at h
  have hsrc := not_mem_escape hc src
  rcases List.append_eq_append_iff.mp h with ⟨rest, -, hrest⟩ | ⟨rest, hrest, hafter⟩
  · obtain ⟨last, -, hlast⟩ := append_eq_append_cons hsrc hrest
    exact .inr ⟨last, hlast.symm⟩
  · cases rest with
    | nil =>
      have hempty : escape src ++ '"' :: '>' :: scriptEnd = [] ++ c :: after := hafter.symm
      obtain ⟨last, -, hlast⟩ := append_eq_append_cons hsrc hempty
      exact .inr ⟨last, hlast.symm⟩
    | cons d rest =>
      obtain ⟨rfl, -⟩ := List.cons.inj hafter
      exact .inl ⟨rest, by rw [hrest, List.append_assoc]; rfl⟩

/-- Two quotes, around the source, and no mark but those of the two tags. -/
structure ClosedInPlace (tag : List Char) : Prop where
  quotes : ∀ before after, tag = before ++ '"' :: after →
    before = "<script defer src=".toList ∨ after = '>' :: scriptEnd
  starts : ∀ before after, tag = before ++ '<' :: after → before = [] ∨ '<' :: after = scriptEnd
  ends : ∀ before after, tag = before ++ '>' :: after → after = scriptEnd ∨ after = []

theorem closedInPlace_scriptTag (src : List Char) : ClosedInPlace (scriptTag src) where
  quotes before after h := by
    have hfront : ∀ l ∈ scriptStart.inits, l.getLast? = some '"' →
        l.dropLast = "<script defer src=".toList := by decide
    have hback : ∀ l ∈ ('"' :: '>' :: scriptEnd).tails, l.head? = some '"' →
        l.tail = '>' :: scriptEnd := by decide
    rcases mark_place (by decide) h with hin | hin
    · exact .inl (by simpa using hfront _ hin)
    · exact .inr (hback _ hin rfl)
  starts before after h := by
    have hfront : ∀ l ∈ scriptStart.inits, l.getLast? = some '<' → l.dropLast = [] := by decide
    have hback : ∀ l ∈ ('"' :: '>' :: scriptEnd).tails, l.head? = some '<' →
        l = scriptEnd := by decide
    rcases mark_place (by decide) h with hin | hin
    · exact .inl (by simpa using hfront _ hin)
    · exact .inr (hback _ hin rfl)
  ends before after h := by
    have hfront : ∀ l ∈ scriptStart.inits, l.getLast? ≠ some '>' := by decide
    have hback : ∀ l ∈ ('"' :: '>' :: scriptEnd).tails, l.head? = some '>' →
        l.tail = scriptEnd ∨ l.tail = [] := by decide
    rcases mark_place (by decide) h with hin | hin
    · exact absurd (by simp) (hfront _ hin)
    · exact hback _ hin rfl

/-- An escaped text has no marks, its `&`s begin entities, and with the characters put back it is
the text again. So the element of a script is closed only where it is meant to be, its source can be
read from it whatever comes after, and no other source has the same element. -/
theorem escape_safe_and_lossless (s : List Char) :
    (∀ c ∈ marks, c ∉ escape s) ∧
      (∀ before after, escape s = before ++ '&' :: after →
        ∃ e ∈ entities, e.1 <+: '&' :: after) ∧
      unescape (escape s) = s ∧ ClosedInPlace (scriptTag s) ∧
      (∀ rest, readScript (scriptTag s ++ rest) = some (s, rest)) ∧
      ∀ t, scriptTag s = scriptTag t → s = t := by
  refine ⟨fun c hc => not_mem_escape hc s, fun before after => entity_of_escape_eq,
    unescape_escape s, closedInPlace_scriptTag s, readScript_scriptTag s, fun t h => ?_⟩
  have hs := readScript_scriptTag s []
  rw [h, readScript_scriptTag t []] at hs
  exact congrArg Prod.fst (Option.some.inj hs).symm

end Bundler.Html
