import Bundler.Decimal.Shortest
import Bundler.Json.Basic
/-!
# JSON text

Values are written without spaces, object keys in their order, or over several lines with two
blanks of indentation. Strings escape the quote, the backslash and the controls below the blank,
all else stands for itself.
-/
namespace Bundler.Json

def hexDigit (n : Nat) : Char := Nat.digitChar n

/-- A character as it is written inside a string. Nothing beyond ASCII is escaped. -/
def escapeChar (c : Char) : List Char :=
  if c = '"' then ['\\', '"']
  else if c = '\\' then ['\\', '\\']
  else if c = '\n' then ['\\', 'n']
  else if c = '\r' then ['\\', 'r']
  else if c = '\t' then ['\\', 't']
  else if c = '\x08' then ['\\', 'b']
  else if c = '\x0c' then ['\\', 'f']
  else if c.toNat < 32 then
    ['\\', 'u', '0', '0', hexDigit (c.toNat / 16), hexDigit (c.toNat % 16)]
  else [c]

def quote (s : String) : String :=
  String.ofList ('"' :: s.toList.flatMap escapeChar ++ ['"'])

/-- How the shortest decimal of a number is laid out: without exponent while its first digit
stands between the fifth place after the point and the sixteenth before it, always with a point;
else with one digit before the point and a signed exponent. -/
def layDecimal (d : Decimal.Digits) : String :=
  let text := toString d.digits
  let digits := text.toList
  let first := (digits.length : Int) + d.exponent - 1
  if 0 ≤ d.exponent && first ≤ 15 then
    text ++ String.ofList (List.replicate d.exponent.toNat '0') ++ ".0"
  else if 0 ≤ first && first ≤ 15 then
    String.ofList (digits.take (first.toNat + 1)) ++ "." ++
      String.ofList (digits.drop (first.toNat + 1))
  else if -5 ≤ first && first < 0 then
    "0." ++ String.ofList (List.replicate (-first - 1).toNat '0') ++ text
  else
    let mantissa := match digits with
      | [c] => String.singleton c
      | c :: rest => String.singleton c ++ "." ++ String.ofList rest
      | [] => ""
    mantissa ++ "e" ++ (if 0 ≤ first then "+" else "") ++ toString first

/-- A floating point number by its shortest decimal. What is not finite is written as `null`. -/
def floatText (bits : UInt64) : String :=
  match Decimal.Binary.ofBits bits with
  | none => "null"
  | some b =>
    (if b.negative then "-" else "") ++
      if b.significand = 0 then "0.0" else layDecimal b.shortest

/-- A number. A whole one has no point, a floating point one always has a point or an exponent. -/
def numberText : JsonNumber → String
  | .whole n => toString n
  | .float bits => floatText bits

mutual

/-- The text of a value on one line and without spaces. -/
def compact : Json → String
  | .null => "null"
  | .bool b => if b then "true" else "false"
  | .number n => numberText n
  | .string s => quote s
  | .array items => "[" ++ ",".intercalate (compactItems items) ++ "]"
  | .object fields => "\x7b" ++ ",".intercalate (compactFields fields) ++ "\x7d"

def compactItems : List Json → List String
  | [] => []
  | v :: vs => compact v :: compactItems vs

def compactFields : List (String × Json) → List String
  | [] => []
  | (k, v) :: fs => (quote k ++ ":" ++ compact v) :: compactFields fs

end

/-- A new line with two blanks for each level. -/
def indent (depth : Nat) : String := "\n" ++ String.ofList (List.replicate (2 * depth) ' ')

mutual

/-- The text of a value over several lines; an empty array or object stays on its line. -/
def prettyAt (depth : Nat) : Json → String
  | .null => "null"
  | .bool b => if b then "true" else "false"
  | .number n => numberText n
  | .string s => quote s
  | .array [] => "[]"
  | .array (v :: vs) =>
    "[" ++ ",".intercalate (prettyItems (depth + 1) (v :: vs)) ++ indent depth ++ "]"
  | .object [] => "\x7b\x7d"
  | .object (f :: fs) =>
    "\x7b" ++ ",".intercalate (prettyFields (depth + 1) (f :: fs)) ++ indent depth ++ "\x7d"

def prettyItems (depth : Nat) : List Json → List String
  | [] => []
  | v :: vs => (indent depth ++ prettyAt depth v) :: prettyItems depth vs

def prettyFields (depth : Nat) : List (String × Json) → List String
  | [] => []
  | (k, v) :: fs => (indent depth ++ quote k ++ ": " ++ prettyAt depth v) :: prettyFields depth fs

end

/-- The text of a value over several lines, without one at the end. -/
def pretty (v : Json) : String := prettyAt 0 v

end Bundler.Json
