import Bundler.Config.Basic
/-!
# Invocations

What a run is asked to do: a command with its options, and options that go before or after the
name of the command. Reading goes word by word. An option with a value is settled only when the
next one is met or the words end; until then a later word that is not known at all is the fault
that is reported.
-/
namespace Bundler

/-- An option without a value. Help and version are switches that end the reading. -/
inductive Switch where
  | verbose | quiet | noColor | json | help | version
  deriving DecidableEq, Repr

inductive Setting where
  | config | profile | mode | outDir | maxChunks
  deriving DecidableEq, Repr

/-- Why the words of an invocation are refused. Asking for help or for the version counts as one,
since there is nothing to run. -/
inductive WordFault where
  | helpAsked
  | versionAsked
  | nothingGiven
  | commandMissing
  | commandUnknown
  | argumentUnknown
  | conflict
  | valueInvalid
  | valueOutOfRange
  | valueUnneeded
  deriving DecidableEq, Repr

def WordFault.message : WordFault → String
  | helpAsked => "usage: tern [--verbose | --quiet] [--no-color] <build | check> [options]"
  | versionAsked => "tern 0.1.0"
  | nothingGiven | commandMissing => "a command is needed: build or check"
  | commandUnknown => "unrecognized subcommand"
  | argumentUnknown => "unexpected argument"
  | conflict => "an argument cannot be used here, or not again"
  | valueInvalid => "a value is missing or invalid"
  | valueOutOfRange => "a value is no number in the allowed range"
  | valueUnneeded => "unexpected value for an argument"

/-- Where options stand: before the name of a command, or after it. -/
inductive Scope where
  | top | build | check
  deriving DecidableEq, Repr

namespace Scope

def ofCommand? (w : String) : Option Scope :=
  if w = "build" then some build else if w = "check" then some check else none

def switch? (s : Scope) (name : String) : Option Switch :=
  if name = "verbose" then some .verbose
  else if name = "quiet" then some .quiet
  else if name = "no-color" then some .noColor
  else if name = "help" then some .help
  else if name = "version" ∧ s = top then some .version
  else if name = "json" ∧ s = build then some .json
  else none

/-- The setting of a name, where the scope has it. There is none before the name of a command. -/
def setting? (s : Scope) (name : String) : Option Setting :=
  if s = top then none
  else if name = "config" then some .config
  else if name = "profile" then some .profile
  else if s = check then none
  else if name = "mode" then some .mode
  else if name = "out-dir" then some .outDir
  else if name = "max-chunks" then some .maxChunks
  else none

/-- The name that a letter is short for, empty for a letter without a meaning. -/
def longName : Char → String
  | 'v' => "verbose"
  | 'q' => "quiet"
  | 'h' => "help"
  | 'V' => "version"
  | 'c' => "config"
  | 'p' => "profile"
  | 'm' => "mode"
  | 'd' => "out-dir"
  | _ => ""

end Scope

/-- What the options of a build give. A check uses the first two of them. -/
structure BuildOptions where
  config : Option String := none
  profile : Option String := none
  mode : Option Mode := none
  outDir : Option String := none
  maxChunks : Option UInt32 := none
  json : Bool := false
  deriving DecidableEq

/-- The number that a text spells in decimal digits, with an optional sign. -/
def spelledNumber? (text : String) : Option Int :=
  let number := fun (ds : List Char) =>
    if ds.isEmpty ∨ !ds.all Char.isDigit then none
    else some (ds.foldl (fun n c => n * 10 + (c.toNat - 48)) 0 : Nat)
  match text.toList with
  | '-' :: ds => (number ds).map fun n => -(n : Int)
  | '+' :: ds => (number ds).map Int.ofNat
  | ds => (number ds).map Int.ofNat

namespace BuildOptions

/-- Puts a value in a place that has to be free. -/
def place {α : Type} (old : Option α) (v : Except WordFault α) : Except WordFault (Option α) :=
  if old.isSome then .error .conflict else v.map some

/-- A value that is a path, which any text but the empty one is. -/
def path (v : String) : Except WordFault String :=
  if v.isEmpty then .error .valueInvalid else .ok v

def modeOf (v : String) : Except WordFault Mode :=
  match Mode.ofWord? v with
  | some m => .ok m
  | none => .error .valueInvalid

/-- A value that is a number of chunks, at least one and below 2 to the 32. -/
def countOf (v : String) : Except WordFault UInt32 :=
  match spelledNumber? v with
  | some n =>
    if 1 ≤ n ∧ n < Int.pow 2 32 then .ok (UInt32.ofNat n.toNat) else .error .valueOutOfRange
  | none => .error .valueOutOfRange

/-- Gives a setting its value, which must be a valid one and must not have been given before. -/
def set (o : BuildOptions) (s : Setting) (v : String) : Except WordFault BuildOptions := do
  match s with
  | .config => return { o with config := ← place o.config (path v) }
  | .profile => return { o with profile := ← place o.profile (.ok v) }
  | .mode => return { o with mode := ← place o.mode (modeOf v) }
  | .outDir => return { o with outDir := ← place o.outDir (path v) }
  | .maxChunks => return { o with maxChunks := ← place o.maxChunks (countOf v) }

end BuildOptions

/-- What has been read of a scope so far. -/
structure Given where
  switches : List Switch := []
  options : BuildOptions := {}
  /-- The last setting, not settled yet, and its value once that has been read. -/
  open? : Option (Setting × Option String) := none
  /-- Whether a lone `--` has been read, after which no word is an option. -/
  ended : Bool := false

namespace Given

/-- Gives the open setting its value. One that still waits for a value is a fault. -/
def settle (g : Given) : Except WordFault Given :=
  match g.open? with
  | none => .ok g
  | some (_, none) => .error .valueInvalid
  | some (s, some v) => do return { g with options := ← g.options.set s v, open? := none }

/-- Turns a switch on. Help and version end the reading. -/
def turnOn (g : Given) (s : Switch) : Except WordFault Given := do
  let g ← g.settle
  if s = .help then throw .helpAsked
  else if s = .version then throw .versionAsked
  else if s ∈ g.switches then throw .conflict
  else return { g with switches := s :: g.switches }

/-- Gives a setting the value that was read with it in one word. -/
def give (g : Given) (s : Setting) (v : String) : Except WordFault Given := do
  let g ← g.settle
  return { g with options := ← g.options.set s v }

def await (g : Given) (s : Setting) : Except WordFault Given := do
  return { ← g.settle with open? := some (s, none) }

/-- Reads a word after its two hyphens. What follows the first equals sign is a value, also where it
is empty. -/
def readLong (scope : Scope) (g : Given) (cs : List Char) : Except WordFault Given :=
  let name := String.ofList (cs.takeWhile (· ≠ '='))
  let value := match cs.dropWhile (· ≠ '=') with
    | [] => none
    | _ :: v => some (String.ofList v)
  match scope.switch? name, scope.setting? name, value with
  | some s, _, none => g.turnOn s
  | some _, _, some _ => .error .valueUnneeded
  | none, some s, some v => g.give s v
  | none, some s, none => g.await s
  | none, none, _ => .error .argumentUnknown

/-- Reads the letters of a word after its hyphen. What follows the letter of a setting is its
value, without an equals sign in front. -/
def readLetters (scope : Scope) (g : Given) : List Char → Except WordFault Given
  | [] => .ok g
  | c :: rest =>
    match scope.switch? (Scope.longName c), scope.setting? (Scope.longName c) with
    | some s, _ => do readLetters scope (← g.turnOn s) rest
    | none, some s =>
      match rest with
      | [] => g.await s
      | '=' :: v => g.give s (String.ofList v)
      | v => g.give s (String.ofList v)
    | none, none => .error .argumentUnknown

def strayFault (scope : Scope) (g : Given) (w : String) : WordFault :=
  if scope ≠ .top ∨ (g.ended ∧ (w = "help" ∨ (Scope.ofCommand? w).isSome)) then .argumentUnknown
  else .commandUnknown

/-- Reads one word. It can be a value only if it starts with no hyphen or is a lone one. -/
def read (scope : Scope) (g : Given) (w : String) : Except WordFault Given :=
  if g.ended then .error (g.strayFault scope w)
  else
    match w.toList with
    | ['-', '-'] => .ok { g with ended := true }
    | '-' :: '-' :: cs => g.readLong scope cs
    | '-' :: c :: cs => g.readLetters scope (c :: cs)
    | _ =>
      match g.open? with
      | some (s, none) => .ok { g with open? := some (s, some w) }
      | _ => .error (g.strayFault scope w)

/-- Ends the words of a scope: settles the open setting and refuses switches against each other. -/
def finish (g : Given) : Except WordFault Given := do
  let g ← g.settle
  if .verbose ∈ g.switches ∧ .quiet ∈ g.switches then throw .conflict else return g

end Given

inductive Command where
  | build (options : BuildOptions)
  | check (config profile : Option String)
  deriving DecidableEq

/-- A command together with how the run is told. The three flags hold if they are given in either
scope. -/
structure Invocation where
  command : Command
  verbose : Bool := false
  quiet : Bool := false
  noColor : Bool := false
  deriving DecidableEq

namespace Invocation

/-- The command of a scope, which is not the top, with what is given after its name. -/
def commandOf (scope : Scope) (g : Given) : Command :=
  if scope = .check then .check g.options.config g.options.profile
  else .build { g.options with json := decide (.json ∈ g.switches) }

/-- Reads what follows the name of a command. Its words are settled before those in front of it are.
-/
def readCommand (top : Given) (scope : Scope) (words : List String) :
    Except WordFault Invocation := do
  let g ← (← words.foldlM (Given.read scope) {}).finish
  let top ← top.finish
  let on := fun s => decide (s ∈ top.switches ++ g.switches)
  return { command := commandOf scope g, verbose := on .verbose, quiet := on .quiet,
           noColor := on .noColor }

/-- The answer to a help command, which takes at most one word: a command's name. -/
def helpFault : List String → WordFault
  | [] => .helpAsked
  | [w] => if w = "help" ∨ (Scope.ofCommand? w).isSome then .helpAsked else .commandUnknown
  | _ => .commandUnknown

/-- Reads words up to the name of a command. After a lone `--` no word names one. -/
def readTop (top : Given) : List String → Except WordFault Invocation
  | [] => .error (if top.switches.isEmpty then .nothingGiven else .commandMissing)
  | w :: rest =>
    if !top.ended ∧ w = "help" then .error (helpFault rest)
    else
      match if top.ended then none else Scope.ofCommand? w with
      | some scope => readCommand top scope rest
      | none => do readTop (← top.read .top w) rest

/-- Reads the words of an invocation, the name of the program not among them. -/
def ofWords (words : List String) : Except WordFault Invocation := readTop {} words

end Invocation

end Bundler
