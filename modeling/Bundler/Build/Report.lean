import Bundler.Build.Compilation
import Bundler.Json.Basic
/-!
# The report of a build as JSON
-/
namespace Bundler

def Json.ofOption (s : Option String) : Json := s.elim .null .string

def Json.strings (ss : List String) : Json := .array (ss.map .string)

/-- The keys come in the order of the fields. A chunk without id or name has `null` for it. -/
def ChunkStats.toJson (c : ChunkStats) : Json :=
  .object [("id", .ofOption c.id), ("name", .ofOption c.name), ("initial", .bool c.initial),
    ("files", .strings c.files), ("size", .nat c.size), ("modules", .strings c.modules)]

def AssetStats.toJson (a : AssetStats) : Json :=
  .object [("name", .string a.name), ("size", .nat a.size)]

/-- Entrypoints are an object whose keys are their names. -/
def Stats.toJson (s : Stats) : Json :=
  .object [("chunks", .array (s.chunks.map ChunkStats.toJson)),
    ("entrypoints", .object (s.entrypoints.map fun e => (e.1, .strings e.2))),
    ("assets", .array (s.assets.map AssetStats.toJson))]

end Bundler
