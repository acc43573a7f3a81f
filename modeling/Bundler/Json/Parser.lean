import Bundler.Json.Basic
/-!
# Reading JSON text

Reading accepts one value with blanks around it and nothing else. A repeated key keeps its first
place and its last value. Nesting goes at most 127 deep. A number without fraction and exponent
that fits in 64 bits stays whole; any other is computed from its first significant digits, as many
as fit in 64 bits, and one scaling by a power of ten.
-/
namespace Bundler.Json

def skipBlanks (cs : List Char) : List Char :=
  cs.dropWhile fun c => c = ' ' || c = '\n' || c = '\t' || c = '\r'

def hexValue? (c : Char) : Option Nat :=
  if '0' ≤ c ∧ c ≤ '9' then some (c.toNat - 48)
  else if 'a' ≤ c ∧ c ≤ 'f' then some (c.toNat - 87)
  else if 'A' ≤ c ∧ c ≤ 'F' then some (c.toNat - 55)
  else none

def hex4? : List Char → Option (Nat × List Char)
  | a :: b :: c :: d :: rest => do
    let n := (← hexValue? a) * 4096 + (← hexValue? b) * 256 + (← hexValue? c) * 16 + (← hexValue? d)
    return (n, rest)
  | _ => none

/-- The character that follows a backslash and `u`: one unit, or a pair of surrogates. -/
def unicodeEscape? (cs : List Char) : Option (Char × List Char) := do
  let (high, rest) ← hex4? cs
  if 0xDC00 ≤ high ∧ high ≤ 0xDFFF then none
  else if 0xD800 ≤ high ∧ high ≤ 0xDBFF then
    match rest with
    | '\\' :: 'u' :: rest => do
      let (low, rest) ← hex4? rest
      if 0xDC00 ≤ low ∧ low ≤ 0xDFFF then
        return (Char.ofNat (0x10000 + (high - 0xD800) * 0x400 + (low - 0xDC00)), rest)
      else none
    | _ => none
  else return (Char.ofNat high, rest)

/-- The character that an escape stands for, and what follows; the backslash is read already. -/
def escape? : List Char → Option (Char × List Char)
  | '"' :: rest => some ('"', rest)
  | '\\' :: rest => some ('\\', rest)
  | '/' :: rest => some ('/', rest)
  | 'b' :: rest => some ('\x08', rest)
  | 'f' :: rest => some ('\x0c', rest)
  | 'n' :: rest => some ('\n', rest)
  | 'r' :: rest => some ('\r', rest)
  | 't' :: rest => some ('\t', rest)
  | 'u' :: rest => unicodeEscape? rest
  | _ => none

/-- The rest of a string after its opening quote, its characters collected backwards. -/
def stringRest? : Nat → List Char → List Char → Option (String × List Char)
  | 0, _, _ => none
  | _, _, [] => none
  | _, back, '"' :: rest => some (String.ofList back.reverse, rest)
  | fuel + 1, back, '\\' :: rest => do
    let (c, rest) ← escape? rest
    stringRest? fuel (c :: back) rest
  | fuel + 1, back, c :: rest => if c.toNat < 32 then none else stringRest? fuel (c :: back) rest

/-- A string after its opening quote. The fuel is enough for all of the text. -/
def string? (cs : List Char) : Option (String × List Char) := stringRest? (cs.length + 1) [] cs

def largestSignificand : Nat := Nat.pow 2 64 - 1

/-- Takes digits into a significand while it fits in 64 bits. Answers the significand, the number
of digits taken and the rest. -/
def takeDigits (significand taken : Nat) : List Char → Nat × Nat × List Char
  | [] => (significand, taken, [])
  | c :: rest =>
    if c.isDigit then
      let next := significand * 10 + (c.toNat - 48)
      if next > largestSignificand then (significand, taken, c :: rest)
      else takeDigits next (taken + 1) rest
    else (significand, taken, c :: rest)

/-- Passes over digits that no longer fit; counts them. -/
def dropDigits (cs : List Char) : Nat × List Char :=
  ((cs.takeWhile Char.isDigit).length, cs.dropWhile Char.isDigit)

def tenTo (n : Nat) : Float := Float.ofScientific 1 false n

/-- Scales a number by a power of ten: one multiplication or division, after divisions by
`10 ^ 308` while the power is smaller than that. A number that becomes too large is refused. -/
def scale? (f : Float) (e : Int) : Option Float :=
  if e.natAbs ≤ 308 then
    if 0 ≤ e then
      let g := f * tenTo e.natAbs
      if g.isInf then none else some g
    else some (f / tenTo e.natAbs)
  else if f == 0.0 then some f
  else if 0 ≤ e then none
  else scale? (f / tenTo 308) (e + 308)
termination_by e.natAbs
decreasing_by omega

/-- The number `significand * 10 ^ e` with its sign, unless it is too large. -/
def floatOfParts? (negative : Bool) (significand : Nat) (e : Int) : Option JsonNumber := do
  let f ← scale? (Float.ofNat significand) e
  return .float (if negative then -f else f).toBits

/-- An exponent cut off at both ends of the signed 32-bit range. -/
def capExponent (e : Int) : Int := max (-Int.pow 2 31) (min e (Int.pow 2 31 - 1))

/-- A number whose exponent part has begun. An exponent of 2 to the 31 or more makes the number
zero, unless it would make it too large, which is refused. -/
def exponentRest? (negative : Bool) (significand : Nat) (start : Int) (cs : List Char) :
    Option (JsonNumber × List Char) := do
  let (down, cs) := match cs with
    | '+' :: rest => (false, rest)
    | '-' :: rest => (true, rest)
    | _ => (false, cs)
  let digits := cs.takeWhile Char.isDigit
  let rest := cs.dropWhile Char.isDigit
  if digits.isEmpty then none
  else
    let e : Nat := digits.foldl (fun n c => n * 10 + (c.toNat - 48)) 0
    if e ≥ Nat.pow 2 31 then
      if significand ≠ 0 ∧ !down then none
      else return (.float (if negative then -0.0 else 0.0 : Float).toBits, rest)
    else
      let total : Int := if down then start - e else start + e
      return (← floatOfParts? negative significand (capExponent total), rest)

/-- A number after its fraction, with or without an exponent part. -/
def exponent? (negative : Bool) (significand : Nat) (start : Int) :
    List Char → Option (JsonNumber × List Char)
  | 'e' :: rest | 'E' :: rest => exponentRest? negative significand start rest
  | rest => do return (← floatOfParts? negative significand start, rest)

/-- A number after its point, which a digit has to follow. -/
def fraction? (negative : Bool) (significand : Nat) (start : Int) (cs : List Char) :
    Option (JsonNumber × List Char) :=
  let (significand, taken, rest) := takeDigits significand 0 cs
  let dropped := dropDigits rest
  if taken = 0 ∧ dropped.1 = 0 then none
  else exponent? negative significand (start - taken) dropped.2

/-- A number after its sign. It does not start with a zero before further digits. -/
def unsigned? (negative : Bool) (cs : List Char) : Option (JsonNumber × List Char) :=
  match cs with
  | [] => none
  | c :: more =>
    if !c.isDigit then none
    else if c = '0' ∧ (more.head?.map Char.isDigit).getD false then none
    else
      let (significand, _, rest) := takeDigits 0 0 cs
      let (dropped, rest) := dropDigits rest
      match rest with
      | '.' :: rest => fraction? negative significand dropped rest
      | 'e' :: rest | 'E' :: rest => exponentRest? negative significand dropped rest
      | rest =>
        if dropped ≠ 0 then do return (← floatOfParts? negative significand dropped, rest)
        else if !negative then some (.whole significand, rest)
        else if 0 < significand ∧ significand ≤ Nat.pow 2 63 then some (.whole (-significand), rest)
        else some (.float (-(Float.ofNat significand)).toBits, rest)

/-- A number and what follows it. A minus is the only sign it may start with. -/
def number? : List Char → Option (JsonNumber × List Char)
  | '-' :: rest => unsigned? true rest
  | cs => unsigned? false cs

mutual

/-- A value nested at most `depth` deep. -/
def value? (depth : Nat) : Nat → List Char → Option (Json × List Char)
  | 0, _ => none
  | fuel + 1, cs =>
    match skipBlanks cs with
    | 'n' :: 'u' :: 'l' :: 'l' :: rest => some (.null, rest)
    | 't' :: 'r' :: 'u' :: 'e' :: rest => some (.bool true, rest)
    | 'f' :: 'a' :: 'l' :: 's' :: 'e' :: rest => some (.bool false, rest)
    | '"' :: rest => do
      let (s, rest) ← string? rest
      return (.string s, rest)
    | '[' :: rest =>
      if depth ≤ 1 then none
      else match skipBlanks rest with
        | ']' :: rest => some (.array [], rest)
        | rest => do
          let (items, rest) ← items? (depth - 1) fuel rest
          return (.array items, rest)
    | '\x7b' :: rest =>
      if depth ≤ 1 then none
      else match skipBlanks rest with
        | '\x7d' :: rest => some (.object [], rest)
        | rest => do
          let (fields, rest) ← fields? (depth - 1) fuel [] rest
          return (.object fields, rest)
    | rest => do
      let (n, rest) ← number? rest
      return (.number n, rest)

/-- The items of an array up to its end, which no separator may stand before. -/
def items? (depth : Nat) : Nat → List Char → Option (List Json × List Char)
  | 0, _ => none
  | fuel + 1, cs => do
    let (v, rest) ← value? depth fuel cs
    match skipBlanks rest with
    | ']' :: rest => return ([v], rest)
    | ',' :: rest => do
      let (vs, rest) ← items? depth fuel rest
      return (v :: vs, rest)
    | _ => none

/-- The fields of an object up to its end, added to those before. -/
def fields? (depth : Nat) : Nat → List (String × Json) → List Char →
    Option (List (String × Json) × List Char)
  | 0, _, _ => none
  | fuel + 1, before, cs =>
    match skipBlanks cs with
    | '"' :: rest => do
      let (key, rest) ← string? rest
      match skipBlanks rest with
      | ':' :: rest => do
        let (v, rest) ← value? depth fuel rest
        let fields := setField key v before
        match skipBlanks rest with
        | '\x7d' :: rest => return (fields, rest)
        | ',' :: rest => fields? depth fuel fields rest
        | _ => none
      | _ => none
    | _ => none

end

/-- The value that a text spells. The fuel is enough for all of the text. -/
def parse? (text : String) : Option Json := do
  let cs := text.toList
  let (v, rest) ← value? 128 (cs.length + 1) cs
  if (skipBlanks rest).isEmpty then some v else none

end Bundler.Json
