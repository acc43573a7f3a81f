import Bundler.Placement.Merge
/-!
# Plans

A plan is what chunking works on: the module graph, the chunks and groups with the placement of
modules in chunks, and the entrypoints by name. It grows by entrypoints and on-demand chunks and
shrinks by removing and merging chunks.
-/
namespace Bundler

/-- All that chunking reads and changes. Keys in it may be of chunks and groups that are no longer
stored. -/
structure Plan where
  modules : ModuleGraph := {}
  placement : Placement := {}
  chunks : Chunks := ∅
  groups : Groups := ∅
  /-- The group of every entrypoint, in the order in which they were added. -/
  entrypoints : OrderedMap String GroupKey := ∅
  supply : KeySupply := {}
  deriving DecidableEq

namespace Plan

instance : Inhabited Plan := ⟨{}⟩

/-- The number of chunks, which is what a limit is about. -/
def chunkCount (p : Plan) : Nat := p.chunks.size

def storeChunk (p : Plan) (c : Chunk) : Plan := { p with chunks := p.chunks.insert c.key c }

def storeGroup (p : Plan) (g : ChunkGroup) : Plan := { p with groups := p.groups.insert g.key g }

/-- The modules that come into a chunk with a module: all it reaches, or itself alone if it is not
in the graph. -/
def broughtBy (p : Plan) (root : ModuleId) : Except GraphError (List ModuleId) :=
  if p.modules.contains root then p.modules.reachable root else .ok [root]

/-- Places a module and all it reaches in a chunk. A failure leaves what was placed before it. -/
def placeReachable (p : Plan) (c : ChunkKey) (root : ModuleId) : Plan × Except GraphError Unit :=
  match p.broughtBy root with
  | .error e => (p, .error e)
  | .ok ids => ({ p with placement := (p.placement.connectEach c ids).1 },
      (p.placement.connectEach c ids).2)

/-- Places modules and all they reach in a chunk, one after another. -/
def placeEach (p : Plan) (c : ChunkKey) : List ModuleId → Plan × Except GraphError Unit
  | [] => (p, .ok ())
  | m :: ms =>
    match p.placeReachable c m with
    | (p, .ok ()) => p.placeEach c ms
    | (p, .error e) => (p, .error e)

/-- The runtimes of all chunks of a group together. -/
def runtimeOf (p : Plan) (g : ChunkGroup) : NameSet :=
  .ofList ((g.chunks.filterMap p.chunks.get?).flatMap (·.runtime.toList))

/-- The chunk of a new entrypoint. -/
def entryChunk (p : Plan) (name : String) : Chunk :=
  { key := p.supply.group.2.chunk.1, name := some name, runtime := .ofList [name],
    groups := .ofList [p.supply.group.1] }

/-- The group of a new entrypoint, whose only chunk carries its runtime. -/
def entryGroup (p : Plan) (name : String) : ChunkGroup :=
  { key := p.supply.group.1, kind := .entrypoint, name := some name,
    chunks := [p.supply.group.2.chunk.1], runtimeChunk := some p.supply.group.2.chunk.1,
    entryChunk := some p.supply.group.2.chunk.1 }

/-- The chunk of a new group below `above`, whose runtimes it inherits. -/
def asyncChunk (p : Plan) (above : ChunkGroup) (label : Option String) : Chunk :=
  { key := p.supply.group.2.chunk.1, name := label, runtime := p.runtimeOf above,
    groups := .ofList [p.supply.group.1] }

/-- The group of a chunk that is loaded on demand. -/
def asyncGroup (p : Plan) (parent : GroupKey) (label : Option String) : ChunkGroup :=
  { key := p.supply.group.1, kind := .normal, name := label,
    chunks := [p.supply.group.2.chunk.1], parents := .ofList [parent] }

/-- Takes in a new chunk and its group under the next keys. No module is in the chunk yet. -/
def takeIn (p : Plan) (c : Chunk) (g : ChunkGroup) : Plan :=
  { p with
    supply := p.supply.group.2.chunk.2
    chunks := p.chunks.insert c.key c
    groups := p.groups.insert g.key g
    placement := p.placement.addChunk c.key }

/-- Adds an entrypoint: a group with one chunk that holds the entry module and all it reaches. A
failure leaves what was added before it. -/
def addEntrypoint (p : Plan) (name : String) (entry : ModuleId) :
    Plan × Except GraphError (GroupKey × ChunkKey) :=
  let c := p.entryChunk name
  let g := p.entryGroup name
  let p := p.takeIn c g
  match p.placement.connectEntry c.key entry g.key with
  | .error e => (p, .error e)
  | .ok placement =>
    match { p with placement }.placeReachable c.key entry with
    | (p, .error e) => (p, .error e)
    | (p, .ok ()) =>
      ({ p with entrypoints := p.entrypoints.insert name g.key }, .ok (g.key, c.key))

/-- The plan with an entrypoint more, where nobody needs what a failure leaves. -/
def enter (p : Plan) (entry : String × ModuleId) : Except GraphError Plan :=
  match p.addEntrypoint entry.1 entry.2 with
  | (p, .ok _) => .ok p
  | (_, .error e) => .error e

/-- Adds a chunk that is loaded on demand below a group. It holds the given modules and all they
reach, and inherits the runtimes of the parent's chunks. A failure leaves what was added before
it. -/
def addAsyncChunk (p : Plan) (parent : GroupKey) (name : Option String) (ms : List ModuleId) :
    Plan × Except GraphError (GroupKey × ChunkKey) :=
  match p.groups.require parent with
  | .error e => (p, .error e)
  | .ok above =>
    let c := p.asyncChunk above name
    let g := p.asyncGroup parent name
    let p := p.takeIn c g
    match { p with groups := p.groups.modify parent (·.addChild g.key) }.placeEach c.key ms with
    | (p, placed) => (p, placed.map fun () => (g.key, c.key))

/-- Removes a chunk and detaches it from modules and groups. Answers the detached chunk, or
nothing if it is not stored. -/
def removeChunk (p : Plan) (k : ChunkKey) : Except GraphError (Plan × Option Chunk) :=
  match p.chunks.get? k with
  | none => .ok (p, none)
  | some c =>
    let p := { p with chunks := p.chunks.erase k }
    if p.placement.contains k then do
      let (placement, c, groups) ← p.placement.disconnectChunk c p.groups
      return ({ p with placement := placement.removeChunk k, groups }, some c)
    else
      let (c, groups) := c.detach p.groups
      .ok ({ p with groups }, some c)

/-- Merges chunk `b` into chunk `a`. The absorbed chunk is no longer stored, even if the merge
fails half-way. -/
def merge (p : Plan) (a b : ChunkKey) : Plan × Except GraphError Unit :=
  match p.chunks.get? b with
  | none => (p, .error (.chunkNotFound b))
  | some source =>
    let p := { p with chunks := p.chunks.erase b }
    match p.chunks.get? a with
    | none => (p, .error (.chunkNotFound a))
    | some target =>
      match MergeState.run { target, source, placement := p.placement, groups := p.groups } with
      | (s, r) =>
        ({ p with
            chunks := p.chunks.insert a s.target
            placement := s.placement
            groups := s.groups }, r)

/-- The id of a chunk: its name, or the next ordinal. -/
def idFor (c : Chunk) (ordinal : Nat) : String × Nat :=
  match c.name with
  | some name => (name, ordinal)
  | none => (toString ordinal, ordinal + 1)

/-- Gives a chunk an id and the file that is named by it. -/
def withId (c : Chunk) (id : String) : Chunk :=
  { c with id := some id, files := c.files.insert (id ++ ".js") }

/-- Gives ids to the chunks with the given keys, counting ordinals from a number on. -/
def assignIdsFrom (cs : Chunks) (ordinal : Nat) : List ChunkKey → Chunks
  | [] => cs
  | k :: ks =>
    match cs.get? k with
    | none => assignIdsFrom cs ordinal ks
    | some c =>
      let (id, next) := idFor c ordinal
      assignIdsFrom (cs.insert k (withId c id)) next ks

/-- Gives an id to every chunk, in the order in which they were made. Ordinals start at 0 and are
not checked against names. -/
def assignIds (p : Plan) : Plan := { p with chunks := assignIdsFrom p.chunks 0 p.chunks.keys }

/-- The files of the chunks of an entrypoint, in chunk order; none for an unknown name. -/
def entrypointFiles (p : Plan) (name : String) : Except GraphError (List String) :=
  match p.entrypoints.get? name with
  | none => .ok []
  | some k => do
    let g ← p.groups.require k
    return (← g.chunks.mapM fun c => do return (← p.chunks.require c).files.toList).flatten

end Plan

end Bundler
