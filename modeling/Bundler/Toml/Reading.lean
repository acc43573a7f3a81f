import Bundler.Toml.Document
/-!
# Tables that stand for other values

A key can mark a table as standing for something else. In the second edition a table whose first
key is that of a date is the date that the text under the key spells, and nothing else in it
counts. In the first edition a table can wrap a value, which it then stands for, whatever else it
holds; a table with a number for its source is refused. The whole document is marked in the second
edition only.
-/
namespace Bundler.Toml

/-- The key under which a table holds the value that it stands for. -/
def wrappedKey : String := "___figment_value_value"

def sourceKey : String := "___figment_value_id"

/-- The date for which a table with the key of a date stands. -/
def momentIn? : List (String × Json) → Option Json
  | (_, .string text) :: _ => (Moment.parse? .v1_1 text.toList).map Moment.toJson
  | _ => none

def isMoment (fields : List (String × Json)) : Bool :=
  (fields.head?.map Prod.fst) == some Moment.key

/-- The value for which a table stands that may wrap one. -/
def unwrap? (fields : List (String × Json)) : Option Json :=
  if (fields.lookup sourceKey).isSome then none
  else some ((fields.lookup wrappedKey).getD (.object fields))

mutual

/-- The value that a value stands for, at all depths. -/
def standsFor? (e : Edition) : Json → Option Json
  | .array items => return .array (← itemsStandFor? e items)
  | .object fields =>
    match e with
    | .v1_0 => do unwrap? (← fieldsStandFor? .v1_0 fields)
    | .v1_1 =>
      if isMoment fields then momentIn? fields
      else return .object (← fieldsStandFor? .v1_1 fields)
  | v => some v

def itemsStandFor? (e : Edition) : List Json → Option (List Json)
  | [] => some []
  | v :: rest => return (← standsFor? e v) :: (← itemsStandFor? e rest)

def fieldsStandFor? (e : Edition) : List (String × Json) → Option (List (String × Json))
  | [] => some []
  | (k, v) :: rest => return (k, ← standsFor? e v) :: (← fieldsStandFor? e rest)

end

/-- The value that a document stands for, or nothing if it is malformed. -/
def read? (e : Edition) (text : String) : Option Json := do
  let fields ← parse? e text
  match e with
  | .v1_0 => return .object (← fieldsStandFor? .v1_0 fields)
  | .v1_1 => standsFor? .v1_1 (.object fields)

end Bundler.Toml
