import Bundler.Keys
import Bundler.Ordered.NameSet
import Bundler.Ordered.Map
import Bundler.Ordered.Set
/-!
# Chunks and chunk groups

A chunk is an output unit; a chunk group is a list of chunks that are loaded together. Entrypoint
groups are loaded by the page itself and carry the runtime, the others are loaded on demand by a
parent group. A chunk names its groups and a group its chunks.
-/
namespace Bundler

/-- An output unit. Which modules it holds is not said here but in the placement. -/
structure Chunk where
  key : ChunkKey
  name : Option String := none
  id : Option String := none
  /-- Names that a later naming of the chunk may draw on. -/
  hints : NameSet := ∅
  /-- The entrypoints in whose runtime the chunk is loaded. -/
  runtime : NameSet := ∅
  files : OrderedSet String := ∅
  /-- Whether the chunk is kept out of all merging. -/
  pinned : Bool := false
  groups : OrderedSet GroupKey := ∅
  deriving DecidableEq

namespace Chunk

/-- Adds a group to those of the chunk. The group has to be told as well. -/
def addGroup (c : Chunk) (g : GroupKey) : Chunk := { c with groups := c.groups.insert g }

def removeGroup (c : Chunk) (g : GroupKey) : Chunk := { c with groups := c.groups.erase g }

end Chunk

/-- Whether the page itself loads a group or code that runs on it does. -/
inductive GroupKind where
  | entrypoint
  | normal
  deriving DecidableEq, Repr

/-- A list of chunks that are loaded together, in the order in which they are loaded. A chunk that
has a role need not be listed. -/
structure ChunkGroup where
  key : GroupKey
  kind : GroupKind
  name : Option String := none
  chunks : List ChunkKey := []
  parents : OrderedSet GroupKey := ∅
  children : OrderedSet GroupKey := ∅
  /-- The chunk that carries the runtime. -/
  runtimeChunk : Option ChunkKey := none
  entryChunk : Option ChunkKey := none
  deriving DecidableEq

namespace ChunkGroup

def isInitial (g : ChunkGroup) : Bool := g.kind = .entrypoint

/-- Puts a chunk at the end; tells whether it was not listed. -/
def push (g : ChunkGroup) (c : ChunkKey) : ChunkGroup × Bool :=
  if c ∈ g.chunks then (g, false) else ({ g with chunks := g.chunks ++ [c] }, true)

/-- Moves a chunk to the front, or puts it there; tells whether it was not in front. -/
def pushFront (g : ChunkGroup) (c : ChunkKey) : ChunkGroup × Bool :=
  if g.chunks.head? = some c then (g, false)
  else ({ g with chunks := c :: g.chunks.erase c }, true)

/-- Puts `new` where `old` stands in a list. Of the two places of a `new` that is there already,
the earlier is kept. -/
def substitute (old new : ChunkKey) (cs : List ChunkKey) : List ChunkKey :=
  match cs.idxOf? old, cs.idxOf? new with
  | none, _ => cs
  | some i, none => cs.set i new
  | some i, some j =>
    if j < i then cs.eraseIdx i
    else if j = i then cs
    else (cs.set i new).eraseIdx j

/-- Puts `new` in place of `old`, in the list and in both roles; tells whether `old` was listed. A
role is passed on even where `old` is not listed. -/
def replace (g : ChunkGroup) (old new : ChunkKey) : ChunkGroup × Bool :=
  ({ g with
      chunks := substitute old new g.chunks
      runtimeChunk := if g.runtimeChunk = some old then some new else g.runtimeChunk
      entryChunk := if g.entryChunk = some old then some new else g.entryChunk },
    g.chunks.contains old)

/-- Takes a chunk out of the list, the two roles staying as they are; tells whether it was
listed. -/
def remove (g : ChunkGroup) (c : ChunkKey) : ChunkGroup × Bool :=
  ({ g with chunks := g.chunks.erase c }, g.chunks.contains c)

def addParent (g : ChunkGroup) (p : GroupKey) : ChunkGroup :=
  { g with parents := g.parents.insert p }

def addChild (g : ChunkGroup) (c : GroupKey) : ChunkGroup :=
  { g with children := g.children.insert c }

end ChunkGroup

/-- The chunks of a build in the order in which they were made. -/
abbrev Chunks := OrderedMap ChunkKey Chunk

abbrev Groups := OrderedMap GroupKey ChunkGroup

end Bundler
