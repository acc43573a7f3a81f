import Bundler.Text.Utf8
/-!
# What is read as UTF-8

Reading succeeds on the bytes of a text and on no others, and gives that text. A step of the reader
takes the bytes of one character; a character has one, two, three or four of them.
-/
namespace Bundler.Text
variable {c : Char} {b : UInt8} {rest tail : List UInt8} {n low high value read v : Nat}

theorem toNat_ofNat_of_valid (h : v.isValidChar) : (Char.ofNat v).toNat = v := by
  rw [Char.ofNat, dif_pos h]
  rfl

theorem ofNat_eq_of_toNat (h : v = b.toNat) : UInt8.ofNat v = b := by
  rw [h, UInt8.ofNat_toNat]

section Encoding

theorem encode_one (h : c.toNat < 0x80) : String.utf8EncodeChar c = [.ofNat c.toNat] := by
  have hsize : c.val.toNat ≤ 0x7F := Nat.le_of_lt_succ h
  rw [String.utf8EncodeChar, if_pos hsize]
  rfl

theorem encode_two (h : 0x80 ≤ c.toNat) (h' : c.toNat < 0x800) :
    String.utf8EncodeChar c = [.ofNat (c.toNat / 64 + 0xC0), .ofNat (c.toNat % 64 + 0x80)] := by
  have hone : ¬ c.val.toNat ≤ 0x7F := Nat.not_le_of_lt h
  have htwo : c.val.toNat ≤ 0x7FF := Nat.le_of_lt_succ h'
  have hlead : c.val.toNat / 64 % 32 = c.val.toNat / 64 := Nat.mod_eq_of_lt (by omega)
  rw [String.utf8EncodeChar, if_neg hone, if_pos htwo, hlead]
  rfl

theorem encode_three (h : 0x800 ≤ c.toNat) (h' : c.toNat < 0x10000) :
    String.utf8EncodeChar c = [.ofNat (c.toNat / 4096 + 0xE0),
      .ofNat (c.toNat / 64 % 64 + 0x80), .ofNat (c.toNat % 64 + 0x80)] := by
  have hone : ¬ c.val.toNat ≤ 0x7F := fun hle => absurd (Nat.le_trans h hle) (by decide)
  have htwo : ¬ c.val.toNat ≤ 0x7FF := Nat.not_le_of_lt h
  have hthree : c.val.toNat ≤ 0xFFFF := Nat.le_of_lt_succ h'
  have hlead : c.val.toNat / 4096 % 16 = c.val.toNat / 4096 := Nat.mod_eq_of_lt (by omega)
  rw [String.utf8EncodeChar, if_neg hone, if_neg htwo, if_pos hthree, hlead]
  rfl

theorem toNat_lt (c : Char) : c.toNat < 0x110000 := by
  rcases c.valid with h | h
  · exact Nat.lt_trans h (by decide)
  · exact h.2

theorem encode_four (h : 0x10000 ≤ c.toNat) :
    String.utf8EncodeChar c = [.ofNat (c.toNat / 262144 + 0xF0),
      .ofNat (c.toNat / 4096 % 64 + 0x80), .ofNat (c.toNat / 64 % 64 + 0x80),
      .ofNat (c.toNat % 64 + 0x80)] := by
  have hone : ¬ c.val.toNat ≤ 0x7F := fun hle => absurd (Nat.le_trans h hle) (by decide)
  have htwo : ¬ c.val.toNat ≤ 0x7FF := fun hle => absurd (Nat.le_trans h hle) (by decide)
  have hthree : ¬ c.val.toNat ≤ 0xFFFF := Nat.not_le_of_lt h
  have hlt : c.val.toNat < 0x110000 := toNat_lt c
  have hlead : c.val.toNat / 262144 % 8 = c.val.toNat / 262144 := Nat.mod_eq_of_lt (by omega)
  rw [String.utf8EncodeChar, if_neg hone, if_neg htwo, if_neg hthree, hlead]
  rfl

end Encoding

section Steps

theorem leadByte_eq_some {lead : Nat} : leadByte lead = some (n, low, high) ↔
    (n = 1 ∧ 0xC2 ≤ lead ∧ lead ≤ 0xDF ∧ low = 0x80 ∧ high = 0xBF) ∨
    (n = 2 ∧ 0xE0 ≤ lead ∧ lead ≤ 0xEF ∧ low = (if lead = 0xE0 then 0xA0 else 0x80) ∧
      high = if lead = 0xED then 0x9F else 0xBF) ∨
    (n = 3 ∧ 0xF0 ≤ lead ∧ lead ≤ 0xF4 ∧ low = (if lead = 0xF0 then 0x90 else 0x80) ∧
      high = if lead = 0xF4 then 0x8F else 0xBF) := by
  unfold leadByte
  grind

/-- The part of a first byte that counts when `n` bytes follow. -/
def leadBits (n lead : Nat) : Nat :=
  if n = 1 then lead % 32 else if n = 2 then lead % 16 else lead % 8

theorem utf8Step_of_lead (hb : 0x80 ≤ b.toNat) (hlead : leadByte b.toNat = some (n, low, high))
    (hrest : followers (leadBits n b.toNat) 1 n low high rest = .ok v) :
    utf8Step b rest = .char (Char.ofNat v) (n + 1) := by
  rw [leadBits] at hrest
  rw [utf8Step, if_neg (Nat.not_lt.mpr hb), hlead]
  dsimp only
  rw [hrest]

theorem utf8Step_eq_char (h : utf8Step b rest = .char c n) :
    b.toNat < 0x80 ∧ c = Char.ofNat b.toNat ∧ n = 1 ∨ ∃ k low high v,
      leadByte b.toNat = some (k, low, high) ∧ c = Char.ofNat v ∧ n = k + 1 ∧
        followers (leadBits k b.toNat) 1 k low high rest = .ok v := by
  unfold utf8Step at h
  split at h
  · cases h
    exact .inl ⟨by assumption, rfl, rfl⟩
  · split at h
    · cases h
    · rename_i k low high hlead
      dsimp only at h
      split at h
      · rename_i v hrest
        cases h
        exact .inr ⟨k, low, high, v, hlead, rfl, rfl, hrest⟩
      · cases h
      · cases h

theorem toNat_ofNat_of_lt (h : v < 256) : (UInt8.ofNat v).toNat = v := by
  rw [UInt8.toNat_ofNat']
  exact Nat.mod_eq_of_lt h

/-- A byte of the range is read, and the bytes after it may be any followers. -/
theorem followers_cons (x : Nat) (hlow : low ≤ x % 64 + 0x80) (hhigh : x % 64 + 0x80 ≤ high) :
    followers value read (n + 1) low high (.ofNat (x % 64 + 0x80) :: tail) =
      followers (value * 64 + x % 64) (read + 1) n 0x80 0xBF tail := by
  have hbyte : (UInt8.ofNat (x % 64 + 0x80)).toNat = x % 64 + 0x80 :=
    toNat_ofNat_of_lt (by omega)
  have hbits : (x % 64 + 0x80) % 64 = x % 64 := by omega
  rw [followers, hbyte, if_pos ⟨hlow, hhigh⟩, hbits]

theorem followers_eq_ok (h : followers value read (n + 1) low high rest = .ok v) :
    ∃ d tail, rest = d :: tail ∧ low ≤ d.toNat ∧ d.toNat ≤ high ∧
      followers (value * 64 + d.toNat % 64) (read + 1) n 0x80 0xBF tail = .ok v := by
  cases rest with
  | nil => cases h
  | cons d tail =>
    rw [followers] at h
    split at h
    · rename_i hrange
      exact ⟨d, tail, rfl, hrange.1, hrange.2, h⟩
    · cases h

/-- A step of the reader takes the bytes of a character. -/
theorem utf8Step_encode (h : String.utf8EncodeChar c = b :: tail) (rest : List UInt8) :
    utf8Step b (tail ++ rest) = .char c (tail.length + 1) := by
  have hlt := toNat_lt c
  have hvalid : c.toNat < 0xD800 ∨ 0xDFFF < c.toNat := c.valid.imp_right And.left
  rw [← Char.ofNat_toNat c]
  by_cases hone : c.toNat < 0x80
  · rw [encode_one hone] at h
    cases h
    rw [utf8Step, toNat_ofNat_of_lt (by omega), if_pos hone]
    rfl
  by_cases htwo : c.toNat < 0x800
  · rw [encode_two (by omega) htwo] at h
    cases h
    have hb : (UInt8.ofNat (c.toNat / 64 + 0xC0)).toNat = c.toNat / 64 + 0xC0 :=
      toNat_ofNat_of_lt (by omega)
    have hlead : leadByte (c.toNat / 64 + 0xC0) = some (1, 0x80, 0xBF) :=
      leadByte_eq_some.mpr (.inl ⟨rfl, by omega, by omega, rfl, rfl⟩)
    have hbits : leadBits 1 (c.toNat / 64 + 0xC0) = c.toNat / 64 := by
      show (c.toNat / 64 + 0xC0) % 32 = _
      omega
    apply utf8Step_of_lead (by omega) (hb ▸ hlead)
    show followers (leadBits 1 _) 1 1 _ _ (_ :: rest) = _
    rw [hb, hbits, followers_cons _ (by omega) (by omega)]
    exact congrArg Except.ok (by omega)
  by_cases hthree : c.toNat < 0x10000
  · rw [encode_three (by omega) hthree] at h
    cases h
    have hb : (UInt8.ofNat (c.toNat / 4096 + 0xE0)).toNat = c.toNat / 4096 + 0xE0 :=
      toNat_ofNat_of_lt (by omega)
    have hlead : leadByte (c.toNat / 4096 + 0xE0) = some (2, _, _) :=
      leadByte_eq_some.mpr (.inr (.inl ⟨rfl, by omega, by omega, rfl, rfl⟩))
    have hbits : leadBits 2 (c.toNat / 4096 + 0xE0) = c.toNat / 4096 := by
      show (c.toNat / 4096 + 0xE0) % 16 = _
      omega
    apply utf8Step_of_lead (by omega) (hb ▸ hlead)
    show followers (leadBits 2 _) 1 2 _ _ (_ :: _ :: rest) = _
    rw [hb, hbits, followers_cons _ (by split <;> omega) (by split <;> omega),
      followers_cons _ (by omega) (by omega)]
    exact congrArg Except.ok (by omega)
  · rw [encode_four (by omega)] at h
    cases h
    have hb : (UInt8.ofNat (c.toNat / 262144 + 0xF0)).toNat = c.toNat / 262144 + 0xF0 :=
      toNat_ofNat_of_lt (by omega)
    have hlead : leadByte (c.toNat / 262144 + 0xF0) = some (3, _, _) :=
      leadByte_eq_some.mpr (.inr (.inr ⟨rfl, by omega, by omega, rfl, rfl⟩))
    have hbits : leadBits 3 (c.toNat / 262144 + 0xF0) = c.toNat / 262144 := by
      show (c.toNat / 262144 + 0xF0) % 8 = _
      omega
    apply utf8Step_of_lead (by omega) (hb ▸ hlead)
    show followers (leadBits 3 _) 1 3 _ _ (_ :: _ :: _ :: rest) = _
    rw [hb, hbits, followers_cons _ (by split <;> omega) (by split <;> omega),
      followers_cons _ (by omega) (by omega), followers_cons _ (by omega) (by omega)]
    exact congrArg Except.ok (by omega)

/-- What a step of the reader takes are the bytes of the character it answers. -/
theorem encode_of_utf8Step (h : utf8Step b rest = .char c n) :
    ∃ tail, String.utf8EncodeChar c = b :: tail ∧ n = tail.length + 1 ∧
      rest = tail ++ rest.drop (n - 1) := by
  have hbyte := b.toNat_lt
  rcases utf8Step_eq_char h with ⟨hb, rfl, rfl⟩ | ⟨k, low, high, v, hlead, rfl, rfl, hrest⟩
  · have hv : (Char.ofNat b.toNat).toNat = b.toNat :=
      toNat_ofNat_of_valid (.inl (Nat.lt_trans hb (by decide)))
    refine ⟨[], ?_, rfl, rfl⟩
    rw [encode_one (by omega), hv, UInt8.ofNat_toNat]
  · rcases leadByte_eq_some.mp hlead with ⟨rfl, hlow, hhigh, rfl, rfl⟩ |
      ⟨rfl, hlow, hhigh, rfl, rfl⟩ | ⟨rfl, hlow, hhigh, rfl, rfl⟩
    · obtain ⟨d, tail, rfl, hd, hd', hrest⟩ := followers_eq_ok hrest
      have hv : b.toNat % 32 * 64 + d.toNat % 64 = v := Except.ok.inj hrest
      have hc := toNat_ofNat_of_valid (v := v) (.inl (by omega))
      refine ⟨[d], ?_, rfl, rfl⟩
      rw [encode_two (by omega) (by omega), hc]
      simp only [List.cons.injEq, and_true]
      exact ⟨ofNat_eq_of_toNat (by omega), ofNat_eq_of_toNat (by omega)⟩
    · obtain ⟨d, tail, rfl, hd, hd', hrest⟩ := followers_eq_ok hrest
      obtain ⟨e, tail, rfl, he, he', hrest⟩ := followers_eq_ok hrest
      have hv : (b.toNat % 16 * 64 + d.toNat % 64) * 64 + e.toNat % 64 = v := Except.ok.inj hrest
      -- The range of the second byte keeps out longer spellings and surrogates.
      have hsecond : (b.toNat = 0xE0 → 0xA0 ≤ d.toNat) ∧ (b.toNat = 0xED → d.toNat ≤ 0x9F) ∧
          0x80 ≤ d.toNat ∧ d.toNat ≤ 0xBF := by
        split at hd <;> split at hd' <;> omega
      have hvalid : v < 0xD800 ∨ 0xDFFF < v ∧ v < 0x110000 := by omega
      have hc := toNat_ofNat_of_valid hvalid
      refine ⟨[d, e], ?_, rfl, rfl⟩
      rw [encode_three (by omega) (by omega), hc]
      simp only [List.cons.injEq, and_true]
      exact ⟨ofNat_eq_of_toNat (by omega), ofNat_eq_of_toNat (by omega),
        ofNat_eq_of_toNat (by omega)⟩
    · obtain ⟨d, tail, rfl, hd, hd', hrest⟩ := followers_eq_ok hrest
      obtain ⟨e, tail, rfl, he, he', hrest⟩ := followers_eq_ok hrest
      obtain ⟨f, tail, rfl, hf, hf', hrest⟩ := followers_eq_ok hrest
      have hv : ((b.toNat % 8 * 64 + d.toNat % 64) * 64 + e.toNat % 64) * 64 + f.toNat % 64 = v :=
        Except.ok.inj hrest
      -- The range of the second byte keeps out longer spellings and numbers that are too large.
      have hsecond : (b.toNat = 0xF0 → 0x90 ≤ d.toNat) ∧ (b.toNat = 0xF4 → d.toNat ≤ 0x8F) ∧
          0x80 ≤ d.toNat ∧ d.toNat ≤ 0xBF := by
        split at hd <;> split at hd' <;> omega
      have hvalid : v < 0xD800 ∨ 0xDFFF < v ∧ v < 0x110000 := by omega
      have hc := toNat_ofNat_of_valid hvalid
      refine ⟨[d, e, f], ?_, rfl, rfl⟩
      rw [encode_four (by omega), hc]
      simp only [List.cons.injEq, and_true]
      exact ⟨ofNat_eq_of_toNat (by omega), ofNat_eq_of_toNat (by omega),
        ofNat_eq_of_toNat (by omega), ofNat_eq_of_toNat (by omega)⟩

end Steps

/-- The first step over the bytes of a text takes those of its first character. -/
theorem exists_encode_cons (c : Char) (cs : List Char) : ∃ b tail,
    (c :: cs).flatMap String.utf8EncodeChar = b :: (tail ++ cs.flatMap String.utf8EncodeChar) ∧
      utf8Step b (tail ++ cs.flatMap String.utf8EncodeChar) = .char c (tail.length + 1) := by
  have hne : String.utf8EncodeChar c ≠ [] := by
    rw [← List.length_pos_iff, String.length_utf8EncodeChar]
    exact c.utf8Size_pos
  obtain ⟨b, tail, hc⟩ := List.exists_cons_of_ne_nil hne
  refine ⟨b, tail, ?_, utf8Step_encode hc _⟩
  rw [List.flatMap_cons, hc, List.cons_append]

theorem utf8From_encode (cs : List Char) (index : Nat) (back : List Char) :
    utf8From index back (cs.flatMap String.utf8EncodeChar) =
      .ok (String.ofList (back.reverse ++ cs)) := by
  induction cs generalizing index back with
  | nil => rw [List.flatMap_nil, utf8From, List.append_nil]
  | cons c cs ih =>
    obtain ⟨b, tail, hbytes, hstep⟩ := exists_encode_cons c cs
    rw [hbytes, utf8From, hstep]
    dsimp only
    rw [Nat.add_sub_cancel, List.drop_left, ih, List.reverse_cons, List.append_assoc]
    rfl

/-- Reading with losses loses nothing of a text. -/
theorem lossyFrom_encode (cs back : List Char) :
    lossyFrom back (cs.flatMap String.utf8EncodeChar) = String.ofList (back.reverse ++ cs) := by
  induction cs generalizing back with
  | nil => rw [List.flatMap_nil, lossyFrom, List.append_nil]
  | cons c cs ih =>
    obtain ⟨b, tail, hbytes, hstep⟩ := exists_encode_cons c cs
    rw [hbytes, lossyFrom, hstep]
    dsimp only
    rw [Nat.add_sub_cancel, List.drop_left, ih, List.reverse_cons, List.append_assoc]
    rfl

theorem encode_of_utf8From {index : Nat} {back : List Char} {bytes : List UInt8} {text : String}
    (h : utf8From index back bytes = .ok text) :
    ∃ cs, bytes = cs.flatMap String.utf8EncodeChar ∧ text = String.ofList (back.reverse ++ cs) := by
  fun_induction utf8From index back bytes with
  | case1 index back =>
    cases h
    exact ⟨[], rfl, by rw [List.append_nil]⟩
  | case2 index back b rest c n hstep ih =>
    obtain ⟨tail, hc, -, hrest⟩ := encode_of_utf8Step hstep
    obtain ⟨cs, hcs, rfl⟩ := ih h
    refine ⟨c :: cs, ?_, ?_⟩
    · rw [List.flatMap_cons, ← hcs, hc, List.cons_append, ← hrest]
    · rw [List.reverse_cons, List.append_assoc]
      rfl
  | case3 index back b rest n hstep => cases h
  | case4 index back b rest hstep => cases h

section Bytes

theorem toList_loop (bytes : ByteArray) (i : Nat) (back : List UInt8) :
    ByteArray.toList.loop bytes i back = back.reverse ++ bytes.data.toList.drop i := by
  fun_induction ByteArray.toList.loop bytes i back with
  | case1 i back h ih =>
    have hi : i < bytes.data.toList.length := h
    have hget : bytes.get! i = bytes.data.toList[i] := getElem!_pos bytes.data i h
    rw [ih, List.drop_eq_getElem_cons hi, List.reverse_cons, List.append_assoc, hget]
    rfl
  | case2 i back h =>
    have hi : bytes.data.toList.length ≤ i := Nat.le_of_not_lt h
    rw [List.drop_eq_nil_of_le hi, List.append_nil]

theorem toList_eq (bytes : ByteArray) : bytes.toList = bytes.data.toList := by
  rw [ByteArray.toList, toList_loop]
  rfl

theorem toList_toUTF8 (text : String) :
    text.toUTF8.toList = text.toList.flatMap String.utf8EncodeChar := by
  rw [toList_eq, String.toUTF8_eq_toByteArray, ← String.utf8Encode_toList, List.utf8Encode,
    List.data_toByteArray]

/-- The bytes of a text are read as that text, and no others are. -/
theorem ofUtf8_eq_ok {bytes : ByteArray} {text : String} :
    ofUtf8 bytes = .ok text ↔ bytes = text.toUTF8 := by
  constructor
  · intro h
    obtain ⟨cs, hbytes, rfl⟩ := encode_of_utf8From h
    rw [String.toUTF8_eq_toByteArray, List.reverse_nil, List.nil_append, String.toByteArray_ofList,
      List.utf8Encode]
    apply ByteArray.ext
    rw [List.data_toByteArray, ← hbytes, toList_eq]
  · rintro rfl
    rw [ofUtf8, toList_toUTF8, utf8From_encode, List.reverse_nil, List.nil_append,
      String.ofList_toList]

end Bytes

end Bundler.Text
