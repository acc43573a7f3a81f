/-!
# Reading UTF-8

Bytes are read character by character. A fault is reported with its place: how many bytes begin a
sequence that cannot be completed, or that the bytes end too early. Reading with losses puts a
replacement character in place of every faulty sequence.
-/
namespace Bundler.Text

/-- Where reading fails. The index counts bytes. -/
structure Utf8Fault where
  index : Nat
  /-- The length of the faulty sequence, or nothing if the bytes end within a sequence. -/
  length : Option Nat
  deriving DecidableEq, Repr

def Utf8Fault.message (f : Utf8Fault) : String :=
  match f.length with
  | some n => s!"invalid utf-8 sequence of {n} bytes from index {f.index}"
  | none => s!"incomplete utf-8 byte sequence from index {f.index}"

/-- How many bytes follow a first byte, and the range of the second. -/
def leadByte (b : Nat) : Option (Nat × Nat × Nat) :=
  if 0xC2 ≤ b ∧ b ≤ 0xDF then some (1, 0x80, 0xBF)
  else if b = 0xE0 then some (2, 0xA0, 0xBF)
  else if b = 0xED then some (2, 0x80, 0x9F)
  else if 0xE1 ≤ b ∧ b ≤ 0xEF then some (2, 0x80, 0xBF)
  else if b = 0xF0 then some (3, 0x90, 0xBF)
  else if 0xF1 ≤ b ∧ b ≤ 0xF3 then some (3, 0x80, 0xBF)
  else if b = 0xF4 then some (3, 0x80, 0x8F)
  else none

/-- Reads the bytes that follow a first byte: `n` of them, the next one in the given range.
Answers the number spelled, or the count of good bytes and whether a bad one follows. -/
def followers (value read : Nat) : Nat → Nat → Nat → List UInt8 → Except (Nat × Bool) Nat
  | 0, _, _, _ => .ok value
  | _ + 1, _, _, [] => .error (read, false)
  | n + 1, low, high, b :: rest =>
    if low ≤ b.toNat ∧ b.toNat ≤ high then
      followers (value * 64 + b.toNat % 64) (read + 1) n 0x80 0xBF rest
    else .error (read, true)

/-- What the next bytes are: a character, a faulty sequence, or the beginning of one that the bytes
end in. -/
inductive Utf8Step where
  | char (c : Char) (bytes : Nat)
  | bad (bytes : Nat)
  | cut

/-- Reads one character or finds the fault that is there. -/
def utf8Step (b : UInt8) (rest : List UInt8) : Utf8Step :=
  if b.toNat < 0x80 then .char (Char.ofNat b.toNat) 1
  else match leadByte b.toNat with
    | none => .bad 1
    | some (n, low, high) =>
      let first := if n = 1 then b.toNat % 32 else if n = 2 then b.toNat % 16 else b.toNat % 8
      match followers first 1 n low high rest with
      | .ok value => .char (Char.ofNat value) (n + 1)
      | .error (read, true) => .bad read
      | .error (_, false) => .cut

def utf8From (index : Nat) (back : List Char) (bytes : List UInt8) : Except Utf8Fault String :=
  match bytes with
  | [] => .ok (String.ofList back.reverse)
  | b :: rest =>
    match utf8Step b rest with
    | .char c n => utf8From (index + n) (c :: back) (rest.drop (n - 1))
    | .bad n => .error ⟨index, some n⟩
    | .cut => .error ⟨index, none⟩
termination_by bytes.length
decreasing_by rw [List.length_drop, List.length_cons]; omega

/-- The text that bytes are, or the first fault. -/
def ofUtf8 (bytes : ByteArray) : Except Utf8Fault String := utf8From 0 [] bytes.toList

def lossyFrom (back : List Char) (bytes : List UInt8) : String :=
  match bytes with
  | [] => String.ofList back.reverse
  | b :: rest =>
    match utf8Step b rest with
    | .char c n => lossyFrom (c :: back) (rest.drop (n - 1))
    | .bad n => lossyFrom ('\ufffd' :: back) (rest.drop (n - 1))
    | .cut => String.ofList ('\ufffd' :: back).reverse
termination_by bytes.length
decreasing_by all_goals (rw [List.length_drop, List.length_cons]; omega)

/-- The text of bytes, whatever they are. Different bytes may have the same text. -/
def lossyUtf8 (bytes : ByteArray) : String := lossyFrom [] bytes.toList

end Bundler.Text
