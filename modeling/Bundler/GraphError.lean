import Bundler.Keys
import Bundler.Module.Basic
/-!
# Failed look-ups

The causes for which a question about modules, chunks or groups has no answer.
-/
namespace Bundler

/-- Each cause names the key or id that was asked for. -/
inductive GraphError where
  | chunkNotFound (key : ChunkKey)
  /-- No group is stored under the key. -/
  | groupNotFound (key : GroupKey)
  | chunkNotPlaced (key : ChunkKey)
  | moduleNotFound (id : ModuleId)
  | chunkIdMissing (key : ChunkKey)
  deriving DecidableEq, Repr

def GraphError.message (names : KeyNames) : GraphError → String
  | chunkNotFound k => s!"chunk not found: #{names.chunk k}"
  | groupNotFound k => s!"chunk group not found: #{names.group k}"
  | chunkNotPlaced k => s!"chunk #{names.chunk k} has not been added to the chunk graph"
  | moduleNotFound id => s!"module not found: {id}"
  | chunkIdMissing k => s!"chunk #{names.chunk k} has no id assigned yet"

end Bundler
