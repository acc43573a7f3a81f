import Bundler.Toml.Date
/-!
# Scalars of TOML

Strings, numbers, truth values and dates. A number or a date is one token of letters, digits and
a few signs; what the token spells decides which of the two it is.
-/
namespace Bundler.Toml

inductive Scalar where
  | string (s : String)
  | whole (n : Int)
  | float (f : Float)
  | bool (b : Bool)
  | moment (m : Moment)

/-- The JSON value of a scalar. A number that is not finite becomes `null`, a date an object. -/
def Scalar.toJson : Scalar → Json
  | .string s => .string s
  | .whole n => .number (.whole n)
  | .float f => if f.isFinite then .number (.float f.toBits) else .null
  | .bool b => .bool b
  | .moment m => m.toJson

def skipSpace (cs : List Char) : List Char := cs.dropWhile fun c => c = ' ' || c = '\t'

/-- Whether a character may stand in a string or a comment as it is. -/
def isText (c : Char) : Bool := c = '\t' || (c.toNat ≥ 32 && c.toNat ≠ 127)

/-- The end of a line: a line feed, also after a carriage return. -/
def newline? : List Char → Option (List Char)
  | '\n' :: rest => some rest
  | '\r' :: '\n' :: rest => some rest
  | _ => none

/-- Passes over a comment, if there is one; refuses one with a character that may not stand in it.
-/
def comment? (cs : List Char) : Option (List Char) :=
  match cs with
  | '#' :: rest =>
    let after := rest.dropWhile isText
    if after.isEmpty ∨ (newline? after).isSome then some after else none
  | _ => some cs

def hexNumber? (cs : List Char) : Option Nat :=
  cs.foldlM (fun n c => do return n * 16 + (← Json.hexValue? c)) 0

def charOf? (n : Nat) : Option Char := if n.isValidChar then some (Char.ofNat n) else none

def numberedChar? (count : Nat) (cs : List Char) : Option (Char × List Char) := do
  let digits := cs.take count
  if digits.length < count then none
  else return (← charOf? (← hexNumber? digits), cs.drop count)

/-- The character that an escape stands for; the backslash is read already. -/
def escape? (e : Edition) : List Char → Option (Char × List Char)
  | 'b' :: rest => some ('\x08', rest)
  | 't' :: rest => some ('\t', rest)
  | 'n' :: rest => some ('\n', rest)
  | 'f' :: rest => some ('\x0c', rest)
  | 'r' :: rest => some ('\r', rest)
  | '"' :: rest => some ('"', rest)
  | '\\' :: rest => some ('\\', rest)
  | 'u' :: rest => numberedChar? 4 rest
  | 'U' :: rest => numberedChar? 8 rest
  | 'e' :: rest => if e = .v1_1 then some ('\x1b', rest) else none
  | 'x' :: rest => if e = .v1_1 then numberedChar? 2 rest else none
  | _ => none

/-- A string in double quotes after the first of them, on one line. -/
def basic? (e : Edition) : Nat → List Char → List Char → Option (String × List Char)
  | 0, _, _ => none
  | _, _, [] => none
  | _, back, '"' :: rest => some (String.ofList back.reverse, rest)
  | fuel + 1, back, '\\' :: rest => do
    let (c, rest) ← escape? e rest
    basic? e fuel (c :: back) rest
  | fuel + 1, back, c :: rest => if isText c then basic? e fuel (c :: back) rest else none

/-- A string in single quotes after the first of them, on one line and without escapes. -/
def literal? (cs : List Char) : Option (String × List Char) :=
  let body := cs.takeWhile fun c => c ≠ '\'' && isText c
  match cs.drop body.length with
  | '\'' :: rest => some (String.ofList body, rest)
  | _ => none

def skipLines : List Char → List Char
  | ' ' :: rest | '\t' :: rest | '\n' :: rest | '\r' :: '\n' :: rest => skipLines rest
  | cs => cs

/-- What follows a backslash at the end of a line: the next character that is no blank. -/
def continuation? (cs : List Char) : Option (List Char) := do
  let rest ← newline? (skipSpace cs)
  return skipLines rest

/-- The end of a string in triple quotes: up to two further quotes belong to the string. -/
def closing? (quote : Char) : List Char → Option (List Char × List Char)
  | a :: b :: c :: rest =>
    if a = quote ∧ b = quote ∧ c = quote then
      match rest with
      | d :: e :: rest' =>
        if d = quote ∧ e = quote then some ([quote, quote], rest')
        else if d = quote then some ([quote], e :: rest')
        else some ([], rest)
      | [d] => if d = quote then some ([quote], []) else some ([], [d])
      | [] => some ([], [])
    else none
  | _ => none

/-- A string in triple quotes. A line end reads as the edition has it. -/
def multiline? (e : Edition) (quote : Char) (escapes : Bool) :
    Nat → List Char → List Char → Option (String × List Char)
  | 0, _, _ => none
  | fuel + 1, back, cs =>
    match closing? quote cs with
    | some (more, rest) => some (String.ofList (back.reverse ++ more), rest)
    | none =>
      match cs with
      | [] => none
      | '\\' :: rest =>
        if escapes then
          match continuation? rest with
          | some rest => multiline? e quote escapes fuel back rest
          | none => do
            let (c, rest) ← escape? e rest
            multiline? e quote escapes fuel (c :: back) rest
        else multiline? e quote escapes fuel ('\\' :: back) rest
      | '\r' :: '\n' :: rest => multiline? e quote escapes fuel (e.lineEnd.reverse ++ back) rest
      | '\n' :: rest => multiline? e quote escapes fuel ('\n' :: back) rest
      | c :: rest => if isText c then multiline? e quote escapes fuel (c :: back) rest else none

def skipNewline (cs : List Char) : List Char := (newline? cs).getD cs

/-- A string in any of the four forms. A line end right behind triple quotes does not count. -/
def string? (e : Edition) (cs : List Char) : Option (String × List Char) :=
  match cs with
  | '"' :: '"' :: '"' :: rest => multiline? e '"' true (cs.length + 1) [] (skipNewline rest)
  | '"' :: rest => basic? e (cs.length + 1) [] rest
  | '\'' :: '\'' :: '\'' :: rest => multiline? e '\'' false (cs.length + 1) [] (skipNewline rest)
  | '\'' :: rest => literal? rest
  | _ => none

/-- Digits with single underscores between them, the underscores taken out. -/
def digits? (isDigit : Char → Bool) : List Char → Option (List Char)
  | [] => none
  | [c] => if isDigit c then some [c] else none
  | c :: '_' :: rest => if isDigit c then (digits? isDigit rest).map (c :: ·) else none
  | c :: rest => if isDigit c then (digits? isDigit rest).map (c :: ·) else none

def fitting? (n : Int) : Option Scalar :=
  if -Int.pow 2 63 ≤ n ∧ n < Int.pow 2 63 then some (.whole n) else none

/-- Whether digits start with a zero that is not their only one. -/
def hasLeadingZero (cs : List Char) : Bool := cs.length > 1 && cs.head? == some '0'

/-- A whole number. Only one in decimal digits may have a sign, and only it must not start with a
zero. -/
def whole? (cs : List Char) : Option Scalar :=
  match cs with
  | '0' :: 'x' :: rest => do
    fitting? (numberIn 16 (← digits? (fun c => (Json.hexValue? c).isSome) rest))
  | '0' :: 'o' :: rest => do
    fitting? (numberIn 8 (← digits? (fun c => '0' ≤ c && c ≤ '7') rest))
  | '0' :: 'b' :: rest => do
    fitting? (numberIn 2 (← digits? (fun c => c = '0' || c = '1') rest))
  | '+' :: rest => decimal false rest
  | '-' :: rest => decimal true rest
  | rest => decimal false rest
where
  decimal (negative : Bool) (cs : List Char) : Option Scalar := do
    let ds ← digits? Char.isDigit cs
    if hasLeadingZero ds then none
    else
      let n : Int := numberIn 10 ds
      fitting? (if negative then -n else n)

def splitSign : List Char → Bool × List Char
  | '+' :: rest => (false, rest)
  | '-' :: rest => (true, rest)
  | rest => (false, rest)

/-- The exactly rounded number with the given digits and power of ten. -/
def floatOf (negative : Bool) (digits : Nat) (e : Int) : Float :=
  let e := max (-20000) (min e 20000)
  let f := if 0 ≤ e then Float.ofScientific digits false e.toNat
    else Float.ofScientific digits true (-e).toNat
  if negative then -f else f

/-- The value of an exponent part: absent, or a mark, a sign and digits. -/
def exponent? : List Char → Option Int
  | [] => some 0
  | c :: rest =>
    if c = 'e' ∨ c = 'E' then do
      let (negative, rest) := splitSign rest
      let n : Int := numberIn 10 (← digits? Char.isDigit rest)
      return if negative then -n else n
    else none

def bounded? (e : Edition) (f : Float) : Option Scalar :=
  if e.isTooLarge f then none else some (.float f)

/-- A number with a fraction, an exponent or both. A point has digits on both sides. -/
def float? (e : Edition) (cs : List Char) : Option Scalar := do
  let (negative, cs) := splitSign cs
  if cs = ['i', 'n', 'f'] then return .float (if negative then -(1.0 / 0.0) else 1.0 / 0.0)
  else if cs = ['n', 'a', 'n'] then return .float (0.0 / 0.0)
  else
    let isPart := fun c => c.isDigit || c = '_'
    let int ← digits? Char.isDigit (cs.takeWhile isPart)
    if hasLeadingZero int then none
    else match cs.dropWhile isPart with
      | '.' :: rest => do
        let frac ← digits? Char.isDigit (rest.takeWhile isPart)
        let power ← exponent? (rest.dropWhile isPart)
        bounded? e (floatOf negative (numberIn 10 (int ++ frac)) (power - frac.length))
      | rest => do
        if rest.isEmpty then none
        else bounded? e (floatOf negative (numberIn 10 int) (← exponent? rest))

/-- What a token spells. Dates are tried before numbers. -/
def token? (e : Edition) (cs : List Char) : Option Scalar :=
  if cs = ['t', 'r', 'u', 'e'] then some (.bool true)
  else if cs = ['f', 'a', 'l', 's', 'e'] then some (.bool false)
  else match Moment.parse? e cs with
    | some m => some (.moment m)
    | none => (whole? cs).or (float? e cs)

def isTokenChar (c : Char) : Bool :=
  c.isAlphanum || c = '+' || c = '-' || c = '.' || c = '_' || c = ':'

/-- A scalar that is no string. A blank between a date and a time belongs to the token. -/
def scalar? (e : Edition) (cs : List Char) : Option (Scalar × List Char) := do
  let first := cs.takeWhile isTokenChar
  let rest := cs.drop first.length
  let (token, rest) := match rest with
    | ' ' :: more =>
      let second := more.takeWhile isTokenChar
      if (day? first).any (·.2.isEmpty) ∧ second.head?.any Char.isDigit then
        (first ++ ' ' :: second, more.drop second.length)
      else (first, rest)
    | _ => (first, rest)
  return (← token? e token, rest)

end Bundler.Toml
