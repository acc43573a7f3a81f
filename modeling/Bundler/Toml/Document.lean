import Bundler.Toml.Scalar
/-!
# Documents of TOML

A document is a table that grows line by line: key-value lines add to the table of the last
header, headers open tables and items of arrays of tables. A table knows how it came about, which
decides whether it may still grow: no table is defined twice, and a value is closed.
-/
namespace Bundler.Toml

/-- How a table came about, which decides what may still be added to it. -/
inductive Origin where
  /-- As a step on the way to a table further down. -/
  | implied
  | header
  | dotted
  deriving DecidableEq, Repr

/-- What stands under a key. Arrays of tables keep the open item in front of those before it. -/
inductive Node where
  | value (v : Json)
  | table (origin : Origin) (fields : List (String × Node))
  | tables (last : List (String × Node)) (before : List (List (String × Node)))
  deriving Inhabited

abbrev Fields := List (String × Node)

/-- Gives a key a node: in its place if it is there, else at the end. -/
def setNode (key : String) (n : Node) : Fields → Fields
  | [] => [(key, n)]
  | (k, m) :: rest => if k = key then (key, n) :: rest else (k, m) :: setNode key n rest

mutual

def Node.toJson : Node → Json
  | .value v => v
  | .table _ fields => .object (fieldsToJson fields)
  | .tables last before => .array (itemsToJson before [.object (fieldsToJson last)])

def fieldsToJson : List (String × Node) → List (String × Json)
  | [] => []
  | (k, n) :: rest => (k, n.toJson) :: fieldsToJson rest

def itemsToJson : List (List (String × Node)) → List Json → List Json
  | [], done => done
  | fields :: rest, done => itemsToJson rest (.object (fieldsToJson fields) :: done)

end

/-- Adds a value under a key with dots. Tables on the way are made, and entered unless they have a
header of their own; of an array of tables the last one is entered. The value itself goes only
into a table that is `extensible`: the one that the key is written in, or one that came about by a
key with dots. -/
def assign (v : Json) : (extensible : Bool) → List String → Fields → Option Fields
  | _, [], _ => none
  | extensible, [key], fields =>
    if extensible ∧ (fields.lookup key).isNone then some (setNode key (.value v) fields) else none
  | _, key :: path, fields =>
    match fields.lookup key with
    | none => do return setNode key (.table .dotted (← assign v true path [])) fields
    | some (.table .header _) => none
    | some (.table origin inner) => do
      return setNode key (.table origin (← assign v (origin = .dotted) path inner)) fields
    | some (.tables last before) => do
      return setNode key (.tables (← assign v false path last) before) fields
    | some (.value _) => none

/-- Changes the table at the end of a path. Tables on the way are made as implied ones, and of an
array of tables the last one is entered. -/
def within (f : Fields → Option Fields) : List String → Fields → Option Fields
  | [], fields => f fields
  | key :: path, fields =>
    match fields.lookup key with
    | none => do return setNode key (.table .implied (← within f path [])) fields
    | some (.table origin inner) => do
      return setNode key (.table origin (← within f path inner)) fields
    | some (.tables last before) => do
      return setNode key (.tables (← within f path last) before) fields
    | some (.value _) => none

/-- Opens the table of a header as the last one of those beside it, also if it has been implied
before. -/
def openTable (key : String) (fields : Fields) : Option Fields :=
  match fields.lookup key with
  | none => some (fields ++ [(key, .table .header [])])
  | some (.table .implied inner) =>
    some (fields.filter (·.1 ≠ key) ++ [(key, .table .header inner)])
  | some _ => none

/-- Opens a new item of an array of tables. An array that is written as a value takes none. -/
def openItem (key : String) (fields : Fields) : Option Fields :=
  match fields.lookup key with
  | none => some (setNode key (.tables [] []) fields)
  | some (.tables last before) => some (setNode key (.tables [] (last :: before)) fields)
  | some _ => none

def isKeyChar (c : Char) : Bool := c.isAlphanum || c = '_' || c = '-'

def keyPart? (e : Edition) (cs : List Char) : Option (String × List Char) :=
  match cs with
  | '"' :: rest => basic? e (cs.length + 1) [] rest
  | '\'' :: rest => literal? rest
  | _ =>
    let bare := cs.takeWhile isKeyChar
    if bare.isEmpty then none else some (String.ofList bare, cs.drop bare.length)

def keyParts? (e : Edition) : (count : Nat) → List Char → Option (List String × List Char)
  | 0, _ => none
  | count + 1, cs => do
    let (part, rest) ← keyPart? e (skipSpace cs)
    match skipSpace rest with
    | '.' :: rest => do
      let (parts, rest) ← keyParts? e count rest
      return (part :: parts, rest)
    | rest => return ([part], rest)

/-- A key with dots, whose parts may have blanks around them. -/
def key? (e : Edition) (cs : List Char) : Option (List String × List Char) :=
  keyParts? e e.maxDepth cs

/-- Drops blanks, comments and ends of lines. -/
def skipGap : Nat → List Char → Option (List Char)
  | 0, cs => some cs
  | fuel + 1, cs => do
    let after ← comment? (skipSpace cs)
    match newline? after with
    | some rest => skipGap fuel rest
    | none => return after

/-- Drops what may stand between the parts of a table in braces: blanks, and in the second edition
comments and ends of lines too. -/
def Edition.skipGap (e : Edition) (cs : List Char) : Option (List Char) :=
  match e with
  | .v1_0 => some (skipSpace cs)
  | .v1_1 => Toml.skipGap (cs.length + 1) cs

mutual

def value? (e : Edition) (depth : Nat) : Nat → List Char → Option (Json × List Char)
  | 0, _ => none
  | fuel + 1, cs =>
    match cs with
    | '"' :: _ | '\'' :: _ => do
      let (s, rest) ← string? e cs
      return (.string s, rest)
    | '[' :: rest =>
      if depth = 0 then none
      else do
        let (items, rest) ← items? e (depth - 1) fuel rest
        return (.array items, rest)
    | '\x7b' :: rest =>
      if depth = 0 then none
      else do
        match ← e.skipGap rest with
        | '\x7d' :: rest => return (.object [], rest)
        | rest =>
          let (fields, rest) ← inlineFields? e (depth - 1) fuel [] rest
          return (.object (fieldsToJson fields), rest)
    | _ => do
      let (s, rest) ← scalar? e cs
      return (s.toJson, rest)

/-- The items of an array up to its end, which a comma may stand before. -/
def items? (e : Edition) (depth : Nat) : Nat → List Char → Option (List Json × List Char)
  | 0, _ => none
  | fuel + 1, cs => do
    match ← skipGap (cs.length + 1) cs with
    | ']' :: rest => return ([], rest)
    | cs => do
      let (v, rest) ← value? e depth fuel cs
      match ← skipGap (rest.length + 1) rest with
      | ']' :: rest => return ([v], rest)
      | ',' :: rest => do
        let (vs, rest) ← items? e depth fuel rest
        return (v :: vs, rest)
      | _ => none

/-- The fields of a table in braces up to its end, added to those before. In the second edition a
comma may stand after the last one. -/
def inlineFields? (e : Edition) (depth : Nat) :
    Nat → Fields → List Char → Option (Fields × List Char)
  | 0, _, _ => none
  | fuel + 1, before, cs => do
    let (key, rest) ← key? e cs
    match ← e.skipGap rest with
    | '=' :: rest => do
      let (v, rest) ← value? e depth fuel (← e.skipGap rest)
      let fields ← assign v true key before
      match ← e.skipGap rest with
      | '\x7d' :: rest => return (fields, rest)
      | ',' :: rest => do
        match e, ← e.skipGap rest with
        | .v1_1, '\x7d' :: rest => return (fields, rest)
        | _, rest => inlineFields? e depth fuel fields rest
      | _ => none
    | _ => none

end

/-- A document as read so far, with the path of the last header. -/
structure Draft where
  fields : Fields := []
  path : List String := []

def Draft.assign (d : Draft) (key : List String) (v : Json) : Option Draft := do
  return { d with fields := ← within (Toml.assign v true key) d.path d.fields }

def Draft.enter (d : Draft) (item : Bool) (path : List String) : Option Draft := do
  let name ← path.getLast?
  let enter := if item then openItem name else openTable name
  return ⟨← within enter path.dropLast d.fields, path⟩

/-- Reads one line up to its comment or its end. -/
def Draft.line (e : Edition) (d : Draft) (cs : List Char) : Option (Draft × List Char) :=
  match cs with
  | '[' :: '[' :: rest => do
    let (path, rest) ← key? e rest
    match rest with
    | ']' :: ']' :: rest => return (← d.enter true path, rest)
    | _ => none
  | '[' :: rest => do
    let (path, rest) ← key? e rest
    match rest with
    | ']' :: rest => return (← d.enter false path, rest)
    | _ => none
  | [] | '#' :: _ | '\n' :: _ | '\r' :: _ => some (d, cs)
  | _ => do
    let (key, rest) ← key? e cs
    match rest with
    | '=' :: rest => do
      let (v, rest) ← value? e e.maxDepth (cs.length + 1) (skipSpace rest)
      return (← d.assign key v, rest)
    | _ => none

def Draft.lines (e : Edition) : Nat → Draft → List Char → Option Draft
  | 0, _, _ => none
  | fuel + 1, d, cs => do
    let (d, rest) ← d.line e (skipSpace cs)
    let rest ← comment? (skipSpace rest)
    match rest with
    | [] => return d
    | rest => Draft.lines e fuel d (← newline? rest)

/-- The fields of a document. A byte order mark in front of it is dropped. -/
def parse? (e : Edition) (text : String) : Option (List (String × Json)) := do
  let cs := text.toList
  let cs := if cs.head? = some '\ufeff' then cs.drop 1 else cs
  let d ← Draft.lines e (cs.length + 1) {} cs
  return fieldsToJson d.fields

end Bundler.Toml
