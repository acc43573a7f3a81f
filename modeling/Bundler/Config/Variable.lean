import Bundler.Json.Parser
import Bundler.Text.Blank
import Bundler.Toml.Scalar
/-!
# Values of variables

The text of an environment variable spells a value: a truth value, a number, a quoted string, one
quoted character, or an array or a table of such values. A text that spells none of these, or more
than one, stands for itself.
-/
namespace Bundler.Variable

def skipSpace (cs : List Char) : List Char :=
  cs.dropWhile fun c => c = ' ' || c = '\t' || c = '\n' || c = '\x0c' || c = '\r'

/-- Whether a character may stand in a word: all but separators and brackets. -/
def isWordChar (c : Char) : Bool :=
  !(c = ',' || c = '\x7b' || c = '\x7d' || c = '[' || c = ']')

/-- Whether a character may stand in a key without quotes. Of letters, only those of ASCII may. -/
def isKeyChar (c : Char) : Bool := c.isAlphanum || c = '_' || c = '-'

def digits? (cs : List Char) : Option Nat :=
  if cs.isEmpty ∨ !cs.all Char.isDigit then none else some (Toml.numberIn 10 cs)

/-- The whole number that a text spells, if it fits in 64 bits, signed or unsigned. -/
def whole? (cs : List Char) : Option Int := do
  let (negative, ds) := Toml.splitSign cs
  let n ← digits? ds
  if negative then if n ≤ Nat.pow 2 63 then return -(n : Int) else none
  else if n < Nat.pow 2 64 then return (n : Int) else none

/-- The value of an exponent part whose digits stand without underscores. -/
def exponent? (cs : List Char) : Option Int :=
  if '_' ∈ cs then none else Toml.exponent? cs

/-- A number with a point, and digits on one side of it at least. -/
def float? (cs : List Char) : Option Float := do
  let (negative, cs) := Toml.splitSign cs
  let int := cs.takeWhile Char.isDigit
  match cs.dropWhile Char.isDigit with
  | '.' :: rest =>
    let frac := rest.takeWhile Char.isDigit
    let e ← exponent? (rest.dropWhile Char.isDigit)
    if int.isEmpty ∧ frac.isEmpty then none
    else return Toml.floatOf negative (Toml.numberIn 10 (int ++ frac)) (e - frac.length)
  | _ => none

/-- What a word stands for: a number with a point, a whole number, or itself. -/
def word (s : String) : Json :=
  match float? s.toList with
  | some f => (Toml.Scalar.float f).toJson
  | none =>
    match whole? s.toList with
    | some n => .number (.whole n)
    | none => .string s

/-- The first characters of a text that take up at most so many bytes in UTF-8. -/
def takeBytes : Nat → List Char → List Char
  | _, [] => []
  | n, c :: cs => if c.utf8Size ≤ n then c :: takeBytes (n - c.utf8Size) cs else []

/-- A string after its opening quote. What stands before its first escape is cut to as many bytes
as it has characters; a string without escapes is not cut. -/
def quoted? (cs : List Char) : Option (String × List Char) := do
  let (s, rest) ← Toml.basic? .v1_0 (cs.length + 1) [] cs
  let plain := cs.takeWhile fun c => c ≠ '"' && c ≠ '\\'
  match cs.drop plain.length with
  | '\\' :: _ =>
    let kept := takeBytes plain.length plain ++ s.toList.drop plain.length
    return (String.ofList kept, rest)
  | _ => return (s, rest)

/-- A key: in quotes, or a nonempty word of letters, digits, hyphens and underscores. -/
def key? (cs : List Char) : Option (String × List Char) :=
  match cs with
  | '"' :: rest => quoted? rest
  | _ =>
    let name := cs.takeWhile isKeyChar
    if name.isEmpty then none else some (String.ofList name, cs.drop name.length)

mutual

def value? : Nat → List Char → Option (Json × List Char)
  | 0, _ => none
  | fuel + 1, cs => do
    let (v, rest) ← match skipSpace cs with
      | 't' :: 'r' :: 'u' :: 'e' :: rest => some (.bool true, rest)
      | 'f' :: 'a' :: 'l' :: 's' :: 'e' :: rest => some (.bool false, rest)
      | '\x7b' :: rest => do
        let (fields, rest) ← fields? fuel [] rest
        return (.object fields, rest)
      | '[' :: rest => do
        let (items, rest) ← items? fuel rest
        return (.array items, rest)
      | '"' :: rest => do
        let (s, rest) ← quoted? rest
        return (.string s, rest)
      | '\'' :: c :: '\'' :: rest => some (.string (String.singleton c), rest)
      | '\'' :: _ => none
      | rest =>
        let token := rest.takeWhile isWordChar
        some (word (Text.trimBlanks (String.ofList token)), rest.drop token.length)
    return (v, skipSpace rest)

/-- The items of an array up to its end; a separator may stand before the end. -/
def items? : Nat → List Char → Option (List Json × List Char)
  | 0, _ => none
  | _ + 1, ']' :: rest => some ([], rest)
  | fuel + 1, cs => do
    let (v, rest) ← value? fuel cs
    match rest with
    | ']' :: rest => return ([v], rest)
    | ',' :: rest => do
      let (vs, rest) ← items? fuel rest
      return (v :: vs, rest)
    | _ => none

/-- The fields of a table up to its end, added to those before. -/
def fields? : Nat → List (String × Json) → List Char → Option (List (String × Json) × List Char)
  | 0, _, _ => none
  | _ + 1, before, '\x7d' :: rest => some (before, rest)
  | fuel + 1, before, cs => do
    let (key, rest) ← key? (skipSpace cs)
    match skipSpace rest with
    | '=' :: rest => do
      let (v, rest) ← value? fuel rest
      let fields := Json.setField key v before
      match rest with
      | '\x7d' :: rest => return (fields, rest)
      | ',' :: rest => fields? fuel fields rest
      | _ => none
    | _ => none

end

/-- The value that a text spells, or the text itself. The fuel is enough for the whole text. -/
def read (text : String) : Json :=
  match value? (2 * text.length + 2) text.toList with
  | some (v, []) => v
  | _ => .string text

end Bundler.Variable
