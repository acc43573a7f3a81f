import Bundler.Json.Printer
import Bundler.Text.Quoted
/-!
# Reading records out of JSON values

Readers for the shapes that a configuration has, and the causes for which a value is refused. A
record is an object, whose unknown keys do not count, or an array of its fields in order. Of
several faults the first one in the order of the document is reported.
-/
namespace Bundler

inductive DecodeError where
  | wrongType (found : Json) (expected : String)
  | outOfRange (found : Int) (expected : String)
  | missingField (name : String)
  | unknownWord (found : String) (allowed : List String)
  | noChoice (name : String)
  | wrongLength (length : Nat) (expected : String)
  /-- An object that stands for a word has not just one key. -/
  | notSingleKey

namespace Json

/-- A value as a message names it. Arrays and objects are told by their kind alone. -/
def described : Json → String
  | .null => "null"
  | .bool b => s!"boolean `{b}`"
  | .number (.whole n) => s!"integer `{n}`"
  | .number (.float bits) => s!"floating point `{floatText bits}`"
  | .string s => "string " ++ Text.quoted s
  | .array _ => "sequence"
  | .object _ => "map"

end Json

def DecodeError.listed : List String → String
  | [] => "there are no variants"
  | [a] => s!"expected `{a}`"
  | [a, b] => s!"expected `{a}` or `{b}`"
  | ws => "expected one of " ++ ", ".intercalate (ws.map fun w => s!"`{w}`")

/-- The text of a cause, which does not say where in the document it was met. -/
def DecodeError.message : DecodeError → String
  | wrongType found expected => s!"invalid type: {found.described}, expected {expected}"
  | outOfRange found expected => s!"invalid value: integer `{found}`, expected {expected}"
  | missingField name => s!"missing field `{name}`"
  | unknownWord found allowed => s!"unknown variant `{found}`, {listed allowed}"
  | noChoice name => s!"data did not match any variant of untagged enum {name}"
  | wrongLength length expected => s!"invalid length {length}, expected {expected}"
  | notSingleKey => "invalid value: map, expected map with a single key"

namespace Json

abbrev Decoded := Except DecodeError

/-- A text; `expected` says what it stands for. -/
def asText (expected : String) : Json → Decoded String
  | .string s => .ok s
  | v => .error (.wrongType v expected)

/-- A text that is a path. Any text is one here. -/
def asPath : Json → Decoded String := asText "path string"

def asString : Json → Decoded String := asText "a string"

/-- A truth value. Neither numbers nor words stand for one. -/
def asBool : Json → Decoded Bool
  | .bool b => .ok b
  | v => .error (.wrongType v "a boolean")

/-- A whole number below a bound. A floating point number is no such number, even if it has no
fraction. -/
def asNatBelow (bound : Nat) (expected : String) : Json → Decoded Nat
  | .number (.whole n) =>
    if 0 ≤ n ∧ n < bound then .ok n.toNat else .error (.outOfRange n expected)
  | v => .error (.wrongType v expected)

def asUInt32 (v : Json) : Decoded UInt32 :=
  (asNatBelow (Nat.pow 2 32) "u32" v).map UInt32.ofNat

def asUInt64 (v : Json) : Decoded UInt64 :=
  (asNatBelow (Nat.pow 2 64) "u64" v).map UInt64.ofNat

/-- Nothing for `null`, else what a reader makes of the value. -/
def asOption {α : Type} (read : Json → Decoded α) : Json → Decoded (Option α)
  | .null => .ok none
  | v => (read v).map some

/-- An array whose items a reader takes. The first item that it refuses counts. -/
def asList {α : Type} (read : Json → Decoded α) : Json → Decoded (List α)
  | .array items => items.mapM read
  | v => .error (.wrongType v "a sequence")

def asFields {α : Type} (read : Json → Decoded α) : Json → Decoded (List (String × α))
  | .object fields => fields.mapM fun f => do return (f.1, ← read f.2)
  | v => .error (.wrongType v "a map")

/-- A word out of a list: a text, or an object whose only key is the word and has the value
`null`. -/
def asWord (allowed : List String) : Json → Decoded String
  | .string s => known s
  | .object [(key, v)] => do
    let w ← known key
    match v with
    | .null => return w
    | v => .error (.wrongType v "unit")
  | .object _ => .error .notSingleKey
  | v => .error (.wrongType v "string or map")
where
  known (s : String) : Decoded String :=
    if s ∈ allowed then .ok s else .error (.unknownWord s allowed)

/-- How a record is read: its name, its fields in order, those that it needs, and what a field
does to the record so far. -/
structure RecordShape (σ : Type) where
  name : String
  fields : List String
  needed : List String := []
  start : σ
  step : σ → String → Json → Decoded σ

namespace RecordShape

variable {σ : Type}

/-- Reads an object field by field. Whether a field is missing is asked only after all that are
there were read. -/
def ofFields (r : RecordShape σ) (fields : List (String × Json)) : Decoded σ := do
  let s ← fields.foldlM (fun s f => r.step s f.1 f.2) r.start
  match r.needed.find? fun name => (fields.lookup name).isNone with
  | some name => .error (.missingField name)
  | none => return s

/-- Reads an array as the fields in order. Those at the end may be left out if they are not needed;
there may not be more items than fields. -/
def ofItems (r : RecordShape σ) (items : List Json) : Decoded σ := do
  let s ← (r.fields.zip items).foldlM (fun s f => r.step s f.1 f.2) r.start
  match (r.fields.drop items.length).find? (· ∈ r.needed) with
  | some name =>
    .error (.wrongLength (r.fields.idxOf name)
      s!"struct {r.name} with {r.fields.length} elements")
  | none =>
    if r.fields.length < items.length then
      .error (.wrongLength items.length "fewer elements in array")
    else return s

def read (r : RecordShape σ) : Json → Decoded σ
  | .object fields => r.ofFields fields
  | .array items => r.ofItems items
  | v => .error (.wrongType v s!"struct {r.name}")

end RecordShape

end Json

end Bundler
