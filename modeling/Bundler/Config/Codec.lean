import Bundler.Config.Basic
import Bundler.Json.Decode
/-!
# Configurations as JSON

Writing a configuration leaves out what is absent or empty, apart from the mode, the entries, the
output and the table of built-ins. Reading takes what writing gives and, besides, records as
arrays, an entry without a name, and plugins as bare names.
-/
namespace Bundler

open Json

namespace Output

/-- Both fields are written, also where they say what is assumed without them. -/
def toJson (o : Output) : Json :=
  .object [("path", .string o.path), ("publicPath", .string o.publicPath)]

def shape : RecordShape Output where
  name := "OutputConfig"
  fields := ["path", "publicPath"]
  start := {}
  step o key v := match key with
    | "path" => return { o with path := ← asPath v }
    | "publicPath" => return { o with publicPath := ← asString v }
    | _ => return o

end Output

namespace HtmlPage

/-- A page without title or choice of entries has no field for it. -/
def toJson (p : HtmlPage) : Json :=
  .object ([("template", .string p.template), ("filename", .string p.filename)] ++
    (p.title.toList.map fun t => ("title", .string t)) ++
    (p.chunks.toList.map fun cs => ("chunks", .array (cs.map .string))))

/-- A page has to name its template, and a `null` stands for no title and no choice of entries. -/
def shape : RecordShape HtmlPage where
  name := "HtmlConfig"
  fields := ["template", "filename", "title", "chunks"]
  needed := ["template"]
  start := { template := "" }
  step p key v := match key with
    | "template" => return { p with template := ← asPath v }
    | "filename" => return { p with filename := ← asString v }
    | "title" => return { p with title := ← asOption asString v }
    | "chunks" => return { p with chunks := ← asOption (asList asString) v }
    | _ => return p

end HtmlPage

namespace LimitSettings

def toJson (l : LimitSettings) : Json :=
  .object ([("maxChunks", .nat l.maxChunks.toNat)] ++
    (l.chunkOverhead.toList.map fun n => ("chunkOverhead", .nat n.toNat)) ++
    (l.entryChunkMultiplicator.toList.map fun n => ("entryChunkMultiplicator", .nat n.toNat)))

/-- A limit has to say how many chunks. That the number is not zero is checked later. -/
def shape : RecordShape LimitSettings where
  name := "LimitChunkCountConfig"
  fields := ["maxChunks", "chunkOverhead", "entryChunkMultiplicator"]
  needed := ["maxChunks"]
  start := { maxChunks := 0 }
  step l key v := match key with
    | "maxChunks" => return { l with maxChunks := ← asUInt32 v }
    | "chunkOverhead" => return { l with chunkOverhead := ← asOption asUInt64 v }
    | "entryChunkMultiplicator" =>
      return { l with entryChunkMultiplicator := ← asOption asUInt64 v }
    | _ => return l

end LimitSettings

namespace Builtins

def toJson (b : Builtins) : Json :=
  .object ((if b.html.isEmpty then [] else [("html", .array (b.html.map HtmlPage.toJson))]) ++
    (b.limitChunkCount.toList.map fun l => ("limitChunkCount", l.toJson)))

/-- Pages are a list here, also where there is just one. -/
def shape : RecordShape Builtins where
  name := "Builtins"
  fields := ["html", "limitChunkCount"]
  start := {}
  step b key v := match key with
    | "html" => return { b with html := ← asList HtmlPage.shape.read v }
    | "limitChunkCount" =>
      return { b with limitChunkCount := ← asOption LimitSettings.shape.read v }
    | _ => return b

end Builtins

namespace PluginEntry

/-- Options that are `null` are left out, as is an empty table of profiles. -/
def toJson (p : PluginEntry) : Json :=
  .object ([("name", .string p.name)] ++
    (match p.options with
      | .null => []
      | v => [("options", v)]) ++
    [("enabled", .bool p.enabled)] ++
    (if p.profiles.isEmpty then [] else [("profiles", .object p.profiles.toList)]))

/-- An entry has to name its plugin. Its options may be any value, and so may what a profile
changes. -/
def shape : RecordShape PluginEntry where
  name := "PluginEntry"
  fields := ["name", "options", "enabled", "profiles"]
  needed := ["name"]
  start := { name := "" }
  step p key v := match key with
    | "name" => return { p with name := ← asString v }
    | "options" => return { p with options := v }
    | "enabled" => return { p with enabled := ← asBool v }
    | "profiles" => return { p with profiles := .ofList (← asFields .ok v) }
    | _ => return p

/-- Reads a plugin entry in either form. -/
def read : Json → Decoded PluginEntry
  | .string name => .ok { name }
  | v => match shape.read v with
    | .ok p => .ok p
    | .error _ => .error (.noChoice "PluginInput")

end PluginEntry

/-- Reads the entries: a table, or a path for the entry without a name. -/
def Entries.read : Json → Decoded Entries
  | .string path => .ok (.ofList [(defaultEntryName, path)])
  | v => match asFields asString v with
    | .ok fields => .ok (.ofList fields)
    | .error _ => .error (.noChoice "EntryInput")

/-- Reads the word of a mode. Any other word is refused with the modes listed. -/
def Mode.read (v : Json) : Decoded Mode := do
  let w ← asWord (Mode.all.map Mode.word) v
  return (Mode.ofWord? w).getD .production

namespace Config

/-- The mode, the entries, the output and the built-ins are always written, all else only where
there is something to write. -/
def toJson (c : Config) : Json :=
  .object ((c.context.toList.map fun p => ("context", .string p)) ++
    [("mode", .string c.mode.word),
      ("entry", .object (c.entry.toList.map fun e => (e.1, .string e.2))),
      ("output", c.output.toJson),
      ("builtins", c.builtins.toJson)] ++
    (if c.plugins.isEmpty then [] else [("plugins", .array (c.plugins.map PluginEntry.toJson))]) ++
    (if c.profiles.isEmpty then [] else [("profiles", .object c.profiles.toList)]))

/-- No field has to be there: that there are entries is checked later. A key that is none of these
is passed over. -/
def shape : RecordShape Config where
  name := "TernConfig"
  fields := ["context", "mode", "entry", "output", "builtins", "plugins", "profiles"]
  start := {}
  step c key v := match key with
    | "context" => return { c with context := ← asOption asPath v }
    | "mode" => return { c with mode := ← Mode.read v }
    | "entry" => return { c with entry := ← Entries.read v }
    | "output" => return { c with output := ← Output.shape.read v }
    | "builtins" => return { c with builtins := ← Builtins.shape.read v }
    | "plugins" => return { c with plugins := ← asList PluginEntry.read v }
    | "profiles" => return { c with profiles := .ofList (← asFields .ok v) }
    | _ => return c

/-- Reads a configuration. What it says need not be acceptable. -/
def read (v : Json) : Decoded Config := shape.read v

end Config

end Bundler
