import Bundler.Config.Profile
import Bundler.Config.Variable
import Bundler.Toml.Reading
/-!
# Overrides

A few settings can be given from outside the configuration and win over it. They are read from
variables whose names start with `TERN_`, in any case; two underscores in a name lead into a
table, so `TERN_OUTPUT__PATH` is the path of the output. The same settings can be read from a
document.
-/
namespace Bundler

/-- The settings that can be given from outside. One that is not given leaves what the configuration
says. -/
structure Overrides where
  mode : Option Mode := none
  context : Option String := none
  outputPath : Option String := none
  publicPath : Option String := none
  maxChunks : Option UInt32 := none
  deriving DecidableEq

namespace LimitSettings

/-- Sets the number of chunks allowed and keeps the constants of the size model. -/
def withMaxChunks (l : Option LimitSettings) (n : UInt32) : LimitSettings :=
  { l.getD { maxChunks := n } with maxChunks := n }

@[simp] theorem maxChunks_withMaxChunks (l : Option LimitSettings) (n : UInt32) :
    (withMaxChunks l n).maxChunks = n := rfl

end LimitSettings

namespace Config

/-- Sets the number of chunks allowed, if one is given, also where there was no limit. -/
def limitTo (c : Config) : Option UInt32 → Config
  | none => c
  | some n =>
    { c with builtins := { c.builtins with
        limitChunkCount := some (LimitSettings.withMaxChunks c.builtins.limitChunkCount n) } }

@[simp] theorem limitTo_none (c : Config) : c.limitTo none = c := rfl

end Config

namespace Overrides

def isEmpty (o : Overrides) : Bool := o = {}

/-- Lays the overrides over a configuration. A relative context stays one. -/
def apply (o : Overrides) (c : Config) : Config :=
  let c := { c with
    mode := o.mode.getD c.mode
    context := o.context.or c.context
    output :=
      { path := o.outputPath.getD c.output.path
        publicPath := o.publicPath.getD c.output.publicPath } }
  c.limitTo o.maxChunks

open Json

/-- Reads a mode from a text alone, where a configuration takes an object for it as well. -/
def readMode (v : Json) : Decoded Mode := do
  let w ← asString v
  match Mode.ofWord? w with
  | some m => return m
  | none => throw (.unknownWord w (Mode.all.map Mode.word))

/-- How the overrides of the output are read on top of those there are. -/
def outputShape (start : Overrides) : RecordShape Overrides where
  name := "Output"
  fields := ["path", "public_path"]
  start := start
  step o key v := match key with
    | "path" => return { o with outputPath := some (← asPath v) }
    | "public_path" => return { o with publicPath := some (← asString v) }
    | _ => return o

/-- Reads the overrides of the output: a table, or an array that starts with both. -/
def readOutput (start : Overrides) : Json → Decoded Overrides
  | .array (path :: publicPath :: _) => (outputShape start).ofItems [path, publicPath]
  | .array items =>
    .error (.wrongLength items.length "struct Output with 2 elements")
  | v => (outputShape start).read v

/-- How overrides are read. Names have underscores here, and no field has to be there. -/
def shape : RecordShape Overrides where
  name := "Overrides"
  fields := ["mode", "context", "output", "max_chunks"]
  start := {}
  step o key v := match key with
    | "mode" => return { o with mode := some (← readMode v) }
    | "context" => return { o with context := some (← asPath v) }
    | "output" => readOutput o v
    | "max_chunks" => return { o with maxChunks := some (← asUInt32 v) }
    | _ => return o

/-- Reads overrides from a value. A fault is told as one of the environment. -/
def ofJson (v : Json) : Except ConfigError Overrides :=
  (shape.read v).mapError fun e => .environment e.message

/-- Reads overrides from a document, which has to follow version 1.0. -/
def ofToml (text : String) : Except ConfigError Overrides :=
  match Toml.read? .v1_0 text with
  | some v => ofJson v
  | none => .error (.environment "TOML parse error")

end Overrides

/-- The variables that are set, in the order in which the environment has them. -/
abbrev Environment := OrderedMap String String

namespace Environment

def mark : List Char := ['t', 'e', 'r', 'n', '_']

/-- Puts a point for each two underscores. -/
def splitMarks : List Char → List Char
  | '_' :: '_' :: rest => '.' :: splitMarks rest
  | c :: rest => c :: splitMarks rest
  | [] => []

/-- The keys that a variable leads to. A variable with another start leads nowhere, and so does one
with an empty key. -/
def keys? (name : String) : Option (List String) :=
  let name := (Text.trimBlanks name).toList.map Char.toLower
  if mark.isPrefixOf name then
    let key := Text.trimBlanks (String.ofList (splitMarks (name.drop mark.length)))
    let keys := key.splitOn "."
    if "" ∈ keys then none else some keys
  else none

/-- A value under a chain of keys, the outermost first. -/
def nest (v : Json) (keys : List String) : Json := keys.foldr (fun k v => .object [(k, v)]) v

/-- The settings that the variables give; a later one is laid over those before. -/
def settings (e : Environment) : Json :=
  e.toList.foldl (fun table (name, text) =>
    match keys? name with
    | some keys => table.overlay (nest (Variable.read text) keys)
    | none => table) (.object [])

/-- The overrides of an environment. A variable whose keys are not known does no harm. -/
def overrides (e : Environment) : Except ConfigError Overrides := Overrides.ofJson e.settings

end Environment

end Bundler
