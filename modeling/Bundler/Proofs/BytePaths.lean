import Bundler.Proofs.StoredFiles
import Bundler.Proofs.Utf8
import Bundler.Text.BytePath
/-!
# Paths as bytes and as texts

Joining and cleaning bring no character into a path but separators and dots, so that on paths of
bytes they act as on their spellings with a character for every byte. In UTF-8 no other character
has the byte of a separator in it, so that on paths that are texts they act as on the texts.
-/
namespace Bundler

namespace Path
variable {p q part : String} {ps kept : List String} {c : Char} {rooted : Bool}

theorem mem_of_mem_splitOn {cs l : List Char} {d : Char} (hl : l ∈ cs.splitOn d) (hc : c ∈ l) :
    c ∈ cs := by
  induction cs generalizing l with
  | nil =>
    rw [List.splitOn_nil, List.mem_singleton] at hl
    exact hl ▸ hc
  | cons e cs ih =>
    rw [List.splitOn_cons_eq_if_modifyHead] at hl
    split at hl
    · rcases List.mem_cons.mp hl with rfl | hl
      · exact absurd hc List.not_mem_nil
      · exact List.mem_cons_of_mem _ (ih hl hc)
    · obtain ⟨first, rest, hsplit⟩ := List.exists_cons_of_ne_nil (List.splitOn_ne_nil d cs)
      rw [hsplit] at hl ih
      rcases List.mem_cons.mp hl with rfl | hl
      · rcases List.mem_cons.mp hc with rfl | hc
        · exact List.mem_cons_self
        · exact List.mem_cons_of_mem _ (ih List.mem_cons_self hc)
      · exact List.mem_cons_of_mem _ (ih (List.mem_cons_of_mem _ hl) hc)

theorem mem_of_mem_parts (hpart : part ∈ parts p) (hc : c ∈ part.toList) : c ∈ p.toList := by
  obtain ⟨l, hl, rfl⟩ := List.mem_map.mp hpart
  rw [String.toList_ofList] at hc
  exact mem_of_mem_splitOn hl hc

theorem mem_foldl_cleanStep (h : part ∈ ps.foldl (cleanStep rooted) kept) :
    part ∈ ps ∨ part ∈ kept ∨ part = ".." := by
  induction ps generalizing kept with
  | nil => exact .inr (.inl h)
  | cons next ps ih =>
    rcases ih h with hps | hkept | hup
    · exact .inl (List.mem_cons_of_mem _ hps)
    · unfold cleanStep at hkept
      grind
    · exact .inr (.inr hup)

theorem mem_toList_intercalate (h : c ∈ ("/".intercalate ps).toList) :
    c = '/' ∨ ∃ part ∈ ps, c ∈ part.toList := by
  rw [String.toList_intercalate] at h
  induction ps with
  | nil => cases h
  | cons part ps ih =>
    rw [List.map_cons] at h
    by_cases hps : ps.map String.toList = []
    · rw [hps, List.intercalate_singleton] at h
      exact .inr ⟨part, List.mem_cons_self, h⟩
    · rw [List.intercalate_cons_of_ne_nil hps, List.mem_append, List.mem_append] at h
      rcases h with (h | h) | h
      · exact .inr ⟨part, List.mem_cons_self, h⟩
      · exact .inl (List.mem_singleton.mp h)
      · rcases ih h with hslash | ⟨other, hother, hc⟩
        · exact .inl hslash
        · exact .inr ⟨other, List.mem_cons_of_mem _ hother, hc⟩

theorem mem_toList_clean (h : c ∈ (clean p).toList) : c ∈ p.toList ∨ c = '/' ∨ c = '.' := by
  have hbody : c ∈ ("/".intercalate (cleanParts p)).toList → c ∈ p.toList ∨ c = '/' ∨ c = '.' := by
    intro hc
    rcases mem_toList_intercalate hc with hslash | ⟨part, hpart, hc⟩
    · exact .inr (.inl hslash)
    · rw [cleanParts, List.mem_reverse] at hpart
      rcases mem_foldl_cleanStep hpart with hpart | hpart | rfl
      · exact .inl (mem_of_mem_parts hpart hc)
      · cases hpart
      · exact .inr (.inr (by simpa using hc))
  unfold clean at h
  split at h
  · rw [String.toList_append, List.mem_append] at h
    rcases h with h | h
    · exact .inr (.inl (List.mem_singleton.mp h))
    · exact hbody h
  · split at h
    · exact .inr (.inr (List.mem_singleton.mp h))
    · exact hbody h

theorem mem_toList_join (h : c ∈ (join p q).toList) : c ∈ p.toList ∨ c ∈ q.toList ∨ c = '/' := by
  unfold join at h
  split at h
  · exact .inr (.inl h)
  · split at h
    · rw [String.toList_append, List.mem_append] at h
      exact h.imp_right .inl
    · rw [String.toList_append, String.toList_append, List.mem_append, List.mem_append] at h
      rcases h with (h | h) | h
      · exact .inl h
      · exact .inr (.inr (List.mem_singleton.mp h))
      · exact .inr (.inl h)

end Path

namespace BytePath
variable {p q : BytePath} {s t : String}

section Spellings

/-- Every character has the number of a byte. -/
def Narrow (s : String) : Prop := ∀ c ∈ s.toList, c.toNat < 256

theorem toNat_ofNat_byte (b : UInt8) : (Char.ofNat b.toNat).toNat = b.toNat :=
  Text.toNat_ofNat_of_valid (.inl (Nat.lt_trans b.toNat_lt (by decide)))

theorem narrow_spelling (p : BytePath) : Narrow p.spelling := by
  intro c hc
  rw [spelling, String.toList_ofList] at hc
  obtain ⟨b, -, rfl⟩ := List.mem_map.mp hc
  rw [toNat_ofNat_byte]
  exact b.toNat_lt

theorem spelling_ofSpelling (h : Narrow s) : (ofSpelling s).spelling = s := by
  apply String.toList_inj.mp
  rw [spelling, ofSpelling, String.toList_ofList, List.map_map]
  conv_rhs => rw [← List.map_id s.toList]
  refine List.map_congr_left fun c hc => ?_
  have hbyte : c.toNat.toUInt8.toNat = c.toNat := Text.toNat_ofNat_of_lt (h c hc)
  show Char.ofNat c.toNat.toUInt8.toNat = c
  rw [hbyte, Char.ofNat_toNat]

theorem ofSpelling_spelling (p : BytePath) : ofSpelling p.spelling = p := by
  have hbytes : p.bytes.map ((fun c => c.toNat.toUInt8) ∘ fun b => Char.ofNat b.toNat) = p.bytes := by
    conv_rhs => rw [← List.map_id p.bytes]
    refine List.map_congr_left fun b _ => ?_
    exact Text.ofNat_eq_of_toNat (toNat_ofNat_byte b)
  rw [spelling, ofSpelling, String.toList_ofList, List.map_map, hbytes]

theorem spelling_injective : Function.Injective spelling :=
  Function.LeftInverse.injective ofSpelling_spelling

theorem spelling_clean (p : BytePath) : p.clean.spelling = Path.clean p.spelling := by
  apply spelling_ofSpelling
  intro c hc
  rcases Path.mem_toList_clean hc with hold | rfl | rfl
  · exact narrow_spelling p c hold
  · decide
  · decide

theorem spelling_join (p q : BytePath) :
    (p.join q).spelling = Path.join p.spelling q.spelling := by
  apply spelling_ofSpelling
  intro c hc
  rcases Path.mem_toList_join hc with hold | hold | rfl
  · exact narrow_spelling p c hold
  · exact narrow_spelling q c hold
  · decide

end Spellings

section Texts

/-- The characters that spell the bytes of a character. -/
def word (c : Char) : List Char := (String.utf8EncodeChar c).map fun b => Char.ofNat b.toNat

/-- The spelling of the path that a text is. -/
def spelled (s : String) : String := (ofText s).spelling

theorem toList_spelled (s : String) : (spelled s).toList = s.toList.flatMap word := by
  rw [spelled, spelling, String.toList_ofList, ofText, Text.toList_toUTF8, List.map_flatMap]
  rfl

/-- In UTF-8 the bytes of a character below `0x80` stand for that character only. -/
theorem eq_of_mem_utf8EncodeChar {c : Char} {b : UInt8} (h : b ∈ String.utf8EncodeChar c)
    (hb : b.toNat < 0x80) : c.toNat = b.toNat := by
  have hbyte : ∀ {n : ℕ}, n < 256 → b = .ofNat n → b.toNat = n := by
    intro n hn hbn
    rw [hbn, Text.toNat_ofNat_of_lt hn]
  have hlt := Text.toNat_lt c
  by_cases hone : c.toNat < 0x80
  · rw [Text.encode_one hone, List.mem_singleton] at h
    exact (hbyte (by omega) h).symm
  by_cases htwo : c.toNat < 0x800
  · rw [Text.encode_two (by omega) htwo] at h
    simp only [List.mem_cons, List.not_mem_nil, or_false] at h
    rcases h with h | h <;> have := hbyte (by omega) h <;> omega
  by_cases hthree : c.toNat < 0x10000
  · rw [Text.encode_three (by omega) hthree] at h
    simp only [List.mem_cons, List.not_mem_nil, or_false] at h
    rcases h with h | h | h <;> have := hbyte (by omega) h <;> omega
  · rw [Text.encode_four (by omega)] at h
    simp only [List.mem_cons, List.not_mem_nil, or_false] at h
    rcases h with h | h | h | h <;> have := hbyte (by omega) h <;> omega

theorem slash_mem_word_iff {c : Char} : '/' ∈ word c ↔ c = '/' := by
  constructor
  · intro h
    obtain ⟨b, hb, hslash⟩ := List.mem_map.mp h
    have hbyte : b.toNat = 0x2F := by rw [← toNat_ofNat_byte, hslash]; rfl
    have hc := eq_of_mem_utf8EncodeChar hb (by omega)
    rw [← Char.ofNat_toNat c, hc, hbyte]
  · rintro rfl
    decide

theorem word_ne_nil (c : Char) : word c ≠ [] := by
  rw [word, Ne, List.map_eq_nil_iff, ← List.length_eq_zero_iff, String.length_utf8EncodeChar]
  exact Nat.ne_of_gt c.utf8Size_pos

theorem splitOn_append_of_not_mem {w cs : List Char} (h : '/' ∉ w) :
    (w ++ cs).splitOn '/' = (cs.splitOn '/').modifyHead (w ++ ·) := by
  induction w with
  | nil => cases hsplit : cs.splitOn '/' <;> simp [hsplit]
  | cons c w ih =>
    obtain ⟨hc, hw⟩ := List.ne_and_not_mem_of_not_mem_cons h
    have hne : ¬ (c == '/') = true := by simpa using hc.symm
    rw [List.cons_append, List.splitOn_cons_eq_if_modifyHead, if_neg hne, ih hw,
      List.modifyHead_modifyHead]
    rfl

theorem splitOn_flatMap_word (cs : List Char) :
    (cs.flatMap word).splitOn '/' = (cs.splitOn '/').map (·.flatMap word) := by
  induction cs with
  | nil => rfl
  | cons c cs ih =>
    rw [List.flatMap_cons, List.splitOn_cons_eq_if_modifyHead]
    by_cases hc : c = '/'
    · subst hc
      rw [if_pos (beq_self_eq_true '/'), List.map_cons, ← ih]
      show ('/' :: cs.flatMap word).splitOn '/' = _
      rw [List.splitOn_cons_eq_if_modifyHead, if_pos (beq_self_eq_true '/')]
      rfl
    · rw [if_neg (by simpa using hc), splitOn_append_of_not_mem (mt slash_mem_word_iff.mp hc), ih]
      cases cs.splitOn '/' <;> simp

theorem parts_spelled (s : String) : Path.parts (spelled s) = (Path.parts s).map spelled := by
  rw [Path.parts, toList_spelled, splitOn_flatMap_word, Path.parts, List.map_map, List.map_map]
  refine List.map_congr_left fun l _ => String.toList_inj.mp ?_
  rw [Function.comp_apply, Function.comp_apply, toList_spelled, String.toList_ofList,
    String.toList_ofList]

theorem spelled_append (s t : String) : spelled (s ++ t) = spelled s ++ spelled t := by
  apply String.toList_inj.mp
  rw [String.toList_append, toList_spelled, toList_spelled, toList_spelled, String.toList_append,
    List.flatMap_append]

theorem lossy_ofText (s : String) : (ofText s).lossy = s := by
  have hbytes : (ofText s).bytes.toByteArray.toList = s.toList.flatMap String.utf8EncodeChar := by
    rw [Text.toList_eq, List.data_toByteArray, ofText, Text.toList_toUTF8]
  rw [lossy, Text.lossyUtf8, hbytes, Text.lossyFrom_encode]
  exact String.ofList_toList

theorem ofText_injective : Function.Injective ofText :=
  Function.LeftInverse.injective lossy_ofText

theorem spelled_injective : Function.Injective spelled :=
  spelling_injective.comp ofText_injective

theorem isAbsolute_spelled (s : String) : Path.isAbsolute (spelled s) = Path.isAbsolute s := by
  rw [Path.isAbsolute, Path.isAbsolute, toList_spelled, decide_eq_decide]
  cases s.toList with
  | nil => rfl
  | cons c cs =>
    rw [List.flatMap_cons, List.head?_append_of_ne_nil _ (word_ne_nil c), List.head?_cons,
      Option.some_inj]
    constructor
    · exact fun h => slash_mem_word_iff.mp (List.mem_of_head? h)
    · rintro rfl
      rfl

theorem getLast?_spelled_iff (s : String) :
    (spelled s).toList.getLast? = some '/' ↔ s.toList.getLast? = some '/' := by
  rw [toList_spelled]
  rcases List.eq_nil_or_concat s.toList with hnil | ⟨cs, c, hconcat⟩
  · rw [hnil]
    rfl
  · rw [hconcat, List.concat_eq_append, List.flatMap_append, List.flatMap_singleton,
      List.getLast?_append_of_ne_nil _ (word_ne_nil c), List.getLast?_concat, Option.some_inj]
    constructor
    · exact fun h => slash_mem_word_iff.mp (List.mem_of_getLast? h)
    · rintro rfl
      rfl

theorem spelled_slash : spelled "/" = "/" := by decide +kernel

theorem spelled_dot : spelled "." = "." := by decide +kernel

theorem spelled_up : spelled ".." = ".." := by decide +kernel

theorem spelled_eq_empty_iff {s : String} : spelled s = "" ↔ s = "" :=
  spelled_injective.eq_iff' (by decide +kernel)

theorem spelled_eq_dot_iff {s : String} : spelled s = "." ↔ s = "." :=
  spelled_injective.eq_iff' spelled_dot

theorem spelled_eq_up_iff {s : String} : spelled s = ".." ↔ s = ".." :=
  spelled_injective.eq_iff' spelled_up

theorem join_spelled (s t : String) :
    Path.join (spelled s) (spelled t) = spelled (Path.join s t) := by
  have hempty : (spelled s).isEmpty = s.isEmpty := by
    rw [Bool.eq_iff_iff, String.isEmpty_iff, String.isEmpty_iff, spelled_eq_empty_iff]
  simp only [Path.join, isAbsolute_spelled, hempty, getLast?_spelled_iff]
  split
  · rfl
  · split
    · exact (spelled_append s t).symm
    · rw [spelled_append, spelled_append, spelled_slash]

theorem cleanStep_spelled (rooted : Bool) (kept : List String) (part : String) :
    Path.cleanStep rooted (kept.map spelled) (spelled part) =
      (Path.cleanStep rooted kept part).map spelled := by
  simp only [Path.cleanStep, spelled_eq_empty_iff, spelled_eq_dot_iff, spelled_eq_up_iff]
  split
  · rfl
  · split
    · cases kept with
      | nil => cases rooted <;> simp [spelled_up]
      | cons last rest =>
        simp only [List.map_cons, spelled_eq_up_iff]
        split
        · rw [List.map_cons, List.map_cons, spelled_up]
        · rfl
    · rfl

theorem cleanParts_spelled (s : String) :
    Path.cleanParts (spelled s) = (Path.cleanParts s).map spelled := by
  have hfold : ∀ (ps kept : List String), (ps.map spelled).foldl
      (Path.cleanStep (Path.isAbsolute s)) (kept.map spelled) =
      (ps.foldl (Path.cleanStep (Path.isAbsolute s)) kept).map spelled := by
    intro ps
    induction ps with
    | nil => exact fun kept => rfl
    | cons part ps ih =>
      intro kept
      rw [List.map_cons, List.foldl_cons, List.foldl_cons, cleanStep_spelled, ih]
  rw [Path.cleanParts, Path.cleanParts, isAbsolute_spelled, parts_spelled, List.map_reverse]
  exact congrArg List.reverse (hfold _ [])

theorem intercalate_spelled (ps : List String) :
    "/".intercalate (ps.map spelled) = spelled ("/".intercalate ps) := by
  have hlists : ∀ ls : List (List Char), ['/'].intercalate (ls.map (·.flatMap word)) =
      (['/'].intercalate ls).flatMap word := by
    intro ls
    induction ls with
    | nil => rfl
    | cons l ls ih =>
      by_cases hls : ls = []
      · rw [hls, List.map_singleton, List.intercalate_singleton, List.intercalate_singleton]
      · rw [List.map_cons, List.intercalate_cons_of_ne_nil (by simpa using hls), ih,
          List.intercalate_cons_of_ne_nil hls, List.flatMap_append, List.flatMap_append]
        rfl
  have hmap : (ps.map spelled).map String.toList = (ps.map String.toList).map (·.flatMap word) := by
    rw [List.map_map, List.map_map]
    exact List.map_congr_left fun s _ => toList_spelled s
  apply String.toList_inj.mp
  rw [toList_spelled, String.toList_intercalate, String.toList_intercalate, hmap]
  exact hlists _

theorem clean_spelled (s : String) : Path.clean (spelled s) = spelled (Path.clean s) := by
  simp only [Path.clean, isAbsolute_spelled, cleanParts_spelled, List.map_eq_nil_iff,
    intercalate_spelled]
  split
  · rw [spelled_append, spelled_slash]
  · split
    · exact spelled_dot.symm
    · rfl

/-- Texts are joined and cleaned as the paths that they are. -/
theorem clean_ofText (s : String) : (ofText s).clean = ofText (Path.clean s) :=
  spelling_injective ((spelling_clean _).trans (clean_spelled s))

theorem join_ofText (s t : String) : (ofText s).join (ofText t) = ofText (Path.join s t) :=
  spelling_injective ((spelling_join _ _).trans (join_spelled s t))

theorem isAbsolute_ofText (s : String) : (ofText s).isAbsolute = Path.isAbsolute s :=
  isAbsolute_spelled s

end Texts

end BytePath

end Bundler
