import Bundler.Build.Settings
import Bundler.Plan.Basic
/-!
# One run of a build

The plan of a build together with its settings, the files it reads and the assets it has emitted,
and what is reported of it.
-/
namespace Bundler

/-- A build as it runs: what it has planned and emitted, and the files that it reads. -/
structure Compilation where
  settings : Settings
  files : FileView
  plan : Plan := {}
  /-- The emitted files by name, in the order in which they were emitted. -/
  assets : OrderedMap String ByteArray := ∅

/-- What is reported of a chunk. Files come in the order in which they were given, modules by id. -/
structure ChunkStats where
  id : Option String
  name : Option String
  initial : Bool
  files : List String
  /-- The sizes of the modules, nothing added. -/
  size : Nat
  modules : List String

structure AssetStats where
  name : String
  size : Nat

/-- What is reported of a build. Each part keeps the order in which its items came to be. -/
structure Stats where
  chunks : List ChunkStats
  entrypoints : List (String × List String)
  assets : List AssetStats

namespace Compilation

/-- Emits a file. The same content may be emitted again under its name. -/
def emit (c : Compilation) (name : String) (content : ByteArray) :
    Except BuildError Compilation :=
  match c.assets.get? name with
  | some old => if old.data = content.data then .ok c else .error (.assetConflict name)
  | none => .ok { c with assets := c.assets.insert name content }

/-- Fails only where the chunk is not placed. A module that the graph lacks adds no size. -/
def chunkStats (p : Plan) (c : Chunk) : Except GraphError ChunkStats := do
  let size ← p.placement.modulesSize p.modules c.key
  let ids := (← p.placement.require c.key).modules.toList
  return {
    id := c.id
    name := c.name
    initial := c.canBeInitial p.groups
    files := c.files.toList
    size
    modules := ids.mergeSort stringLe }

/-- Fails at the first chunk or entrypoint that cannot be described; no part is left out. -/
def stats (c : Compilation) : Except GraphError Stats := do
  let p := c.plan
  return {
    chunks := ← p.chunks.values.mapM (chunkStats p)
    entrypoints := ← p.entrypoints.keys.mapM fun name => do
      return (name, ← p.entrypointFiles name)
    assets := c.assets.toList.map fun a => ⟨a.1, a.2.size⟩ }

end Compilation

end Bundler
