import Bundler.Json.Parser
import Bundler.Toml.Edition
/-!
# Dates and times

A date, a time of day, or both with the offset of a clock. Reading checks every part against its
range and a day against its month. Writing gives one text to each, whichever way it was written:
the seconds always stand, a fraction only if it is not zero and without zeros at its end.
-/
namespace Bundler.Toml

def digitValue (c : Char) : Nat := (Json.hexValue? c).getD 0

def numberIn (base : Nat) (cs : List Char) : Nat := cs.foldl (fun n c => n * base + digitValue c) 0

/-- A day that its month has. -/
structure Day where
  year : Nat
  month : Nat
  day : Nat
  deriving DecidableEq, Repr

/-- A time of day. A minute may have a sixty-first second. -/
structure TimeOfDay where
  hour : Nat
  minute : Nat
  second : Nat := 0
  nanosecond : Nat := 0
  deriving DecidableEq, Repr

/-- How a clock stands to universal time. -/
inductive Offset where
  | universal
  /-- It is this many minutes ahead. -/
  | ahead (minutes : Int)
  deriving DecidableEq, Repr

/-- What a date token can spell. Only a day with a time may have an offset. -/
inductive Moment where
  | day (d : Day)
  | time (t : TimeOfDay)
  | both (d : Day) (t : TimeOfDay) (offset : Option Offset)
  deriving DecidableEq, Repr

def twoDigits? (low high : Nat) : List Char → Option (Nat × List Char)
  | a :: b :: rest =>
    let n := numberIn 10 [a, b]
    if a.isDigit ∧ b.isDigit ∧ low ≤ n ∧ n ≤ high then some (n, rest) else none
  | _ => none

def daysOf (year month : Nat) : Nat :=
  if month = 2 then
    if year % 4 = 0 ∧ (year % 100 ≠ 0 ∨ year % 400 = 0) then 29 else 28
  else if month ∈ [4, 6, 9, 11] then 30 else 31

def day? (cs : List Char) : Option (Day × List Char) := do
  let digits := cs.take 4
  if digits.length < 4 ∨ !digits.all Char.isDigit then none
  else match cs.drop 4 with
    | '-' :: rest => do
      let year := numberIn 10 digits
      let (month, rest) ← twoDigits? 1 12 rest
      match rest with
      | '-' :: rest => do
        let (day, rest) ← twoDigits? 1 (daysOf year month) rest
        return (⟨year, month, day⟩, rest)
      | _ => none
    | _ => none

/-- The nanoseconds that the digits after a point spell; digits past the ninth are dropped. -/
def nanoseconds (digits : List Char) : Nat :=
  let kept := digits.take 9
  numberIn 10 kept * Nat.pow 10 (9 - kept.length)

/-- The seconds with their fraction as nanoseconds. A point needs a digit behind it. -/
def seconds? (cs : List Char) : Option ((Nat × Nat) × List Char) := do
  let (second, rest) ← twoDigits? 0 60 cs
  match rest with
  | '.' :: rest =>
    let digits := rest.takeWhile Char.isDigit
    if digits.isEmpty then none else return ((second, nanoseconds digits), rest.drop digits.length)
  | rest => return ((second, 0), rest)

/-- A time of day, and what follows it. The second edition lets the seconds be left out. -/
def time? (e : Edition) (cs : List Char) : Option (TimeOfDay × List Char) := do
  let (hour, rest) ← twoDigits? 0 23 cs
  match rest with
  | ':' :: rest => do
    let (minute, rest) ← twoDigits? 0 59 rest
    match rest with
    | ':' :: rest => do
      let ((second, nanosecond), rest) ← seconds? rest
      return ({ hour, minute, second, nanosecond }, rest)
    | rest => if e = .v1_1 then return ({ hour, minute }, rest) else none
  | _ => none

/-- The offset at the end of a token, where it may be missing. -/
def offset? : List Char → Option (Option Offset)
  | [] => some none
  | ['Z'] | ['z'] => some (some .universal)
  | sign :: rest => do
    if sign = '+' ∨ sign = '-' then
      let (hours, rest) ← twoDigits? 0 23 rest
      match rest with
      | ':' :: rest => do
        let (minutes, rest) ← twoDigits? 0 59 rest
        let total : Int := hours * 60 + minutes
        if rest.isEmpty then return some (.ahead (if sign = '-' then -total else total)) else none
      | _ => none
    else none

/-- What a whole token spells. A `T` or one blank stands between day and time. -/
def Moment.parse? (e : Edition) (cs : List Char) : Option Moment :=
  match day? cs with
  | some (d, []) => some (.day d)
  | some (d, c :: rest) => do
    if c = 'T' ∨ c = 't' ∨ c = ' ' then
      let (t, rest) ← time? e rest
      return .both d t (← offset? rest)
    else none
  | none => do
    let (t, rest) ← time? e cs
    if rest.isEmpty then return .time t else none

def zeroed (width n : Nat) : String :=
  let digits := toString n
  "".pushn '0' (width - digits.length) ++ digits

def Day.text (d : Day) : String := s!"{zeroed 4 d.year}-{zeroed 2 d.month}-{zeroed 2 d.day}"

def TimeOfDay.fraction (t : TimeOfDay) : String :=
  if t.nanosecond = 0 then ""
  else "." ++ String.ofList ((zeroed 9 t.nanosecond).toList.reverse.dropWhile (· = '0')).reverse

def TimeOfDay.text (t : TimeOfDay) : String :=
  s!"{zeroed 2 t.hour}:{zeroed 2 t.minute}:{zeroed 2 t.second}{t.fraction}"

def Offset.text : Offset → String
  | universal => "Z"
  | ahead minutes =>
    let sign := if minutes < 0 then "-" else "+"
    s!"{sign}{zeroed 2 (minutes.natAbs / 60)}:{zeroed 2 (minutes.natAbs % 60)}"

def Moment.text : Moment → String
  | day d => d.text
  | time t => t.text
  | both d t offset => s!"{d.text}T{t.text}" ++ (offset.map Offset.text).getD ""

/-- The key of the object that a date is as a JSON value. -/
def Moment.key : String := "$__toml_private_datetime"

/-- A moment as an object with one key, so that it cannot be taken for a text. -/
def Moment.toJson (m : Moment) : Json := .object [(key, .string m.text)]

end Bundler.Toml
