import Bundler.Chunk.Basic
import Bundler.GraphError
import Bundler.Ordered.Walk
/-!
# How chunks are loaded

Questions about a chunk that its groups answer: whether the page loads it, which chunks can be
loaded after it, and whether one chunk is always there before another. Keys of groups that are not
stored are passed over.
-/
namespace Bundler

def Chunks.require (cs : Chunks) (k : ChunkKey) : Except GraphError Chunk :=
  match cs.get? k with
  | some c => .ok c
  | none => .error (.chunkNotFound k)

def Groups.require (gs : Groups) (k : GroupKey) : Except GraphError ChunkGroup :=
  match gs.get? k with
  | some g => .ok g
  | none => .error (.groupNotFound k)

namespace Chunk

/-- The id of a chunk, which there is only once ids have been given. -/
def requireId (c : Chunk) : Except GraphError String :=
  match c.id with
  | some id => .ok id
  | none => .error (.chunkIdMissing c.key)

/-- The groups of a chunk, less those that are not stored. -/
def storedGroups (c : Chunk) (gs : Groups) : List ChunkGroup := c.groups.toList.filterMap gs.get?

def canBeInitial (c : Chunk) (gs : Groups) : Bool := (c.storedGroups gs).any (·.isInitial)

/-- Whether the page loads every group of the chunk, and there is one. -/
def isOnlyInitial (c : Chunk) (gs : Groups) : Bool :=
  !c.groups.isEmpty && (c.storedGroups gs).all (·.isInitial)

/-- Whether the chunk carries the runtime of one of its entrypoints. -/
def hasRuntime (c : Chunk) (gs : Groups) : Bool :=
  (c.storedGroups gs).any fun g => g.isInitial && g.runtimeChunk = some c.key

/-- Takes the chunk out of all its groups, on both sides. The roles that it has in groups stay. -/
def detach (c : Chunk) (gs : Groups) : Chunk × Groups :=
  ({ c with groups := ∅ },
    c.groups.toList.foldl (fun gs k => gs.modify k fun g => (g.remove c.key).1) gs)

/-- The chunks of all groups that can be reached from the chunk's groups through children. -/
def referenced (c : Chunk) (gs : Groups) : OrderedSet ChunkKey :=
  .ofList ((gs.walk (fun _ g => g.children.toList) c.groups.toList).flatMap fun k =>
    (gs.get? k).elim [] (·.chunks))

end Chunk

/-- The groups that one meets when one goes up from `start`, not beyond the groups in `ends`. -/
def Groups.above (gs : Groups) (ends start : List GroupKey) : List GroupKey :=
  gs.walk (fun k g => if k ∈ ends then [] else g.parents.toList) start

/-- Whether `a` is loaded whenever `b` is: going up from the groups of `b` one meets a group of
`a` before any initial group. -/
def Groups.isAvailable (gs : Groups) (a b : Chunk) : Bool :=
  (gs.above a.groups.toList b.groups.toList).all fun k =>
    k ∈ a.groups || (gs.get? k).all (!·.isInitial)

end Bundler
