import Bundler.Chunk.Loading
import Bundler.Module.Graph
/-!
# Placements: which modules are in which chunks

A placement keeps for every placed chunk its modules, its entry modules with the entrypoints they
start, its runtime modules and its runtime needs, and for every known module the chunks on the
other side of these three relations. Every operation writes both sides.
-/
namespace Bundler

/-- Helpers that a chunk needs at load time, one bit each: require, module factories, ensure
chunk, load script, public path, chunk script file name, on chunks loaded, has own property. -/
structure RuntimeNeeds where
  bits : UInt8 := 0
  deriving DecidableEq

def RuntimeNeeds.union (a b : RuntimeNeeds) : RuntimeNeeds := ⟨a.bits ||| b.bits⟩

/-- The needs with the bits of a number; bits above the eighth are dropped. -/
def RuntimeNeeds.ofNat (n : Nat) : RuntimeNeeds := ⟨n.toUInt8⟩

/-- What is in a chunk. An entry module or a runtime module need not be among its modules. -/
structure ChunkRecord where
  /-- The entry modules, each with the entrypoint it starts. -/
  entryModules : OrderedMap ModuleId GroupKey := ∅
  modules : OrderedSet ModuleId := ∅
  needs : RuntimeNeeds := {}
  runtimeModules : OrderedSet ModuleId := ∅
  deriving DecidableEq

/-- In which chunks a module is, by each of the three relations. -/
structure ModuleRecord where
  chunks : OrderedSet ChunkKey := ∅
  entryIn : OrderedSet ChunkKey := ∅
  runtimeIn : OrderedSet ChunkKey := ∅
  deriving DecidableEq

def ModuleRecord.forget (r : ModuleRecord) (c : ChunkKey) : ModuleRecord :=
  ⟨r.chunks.erase c, r.entryIn.erase c, r.runtimeIn.erase c⟩

/-- Both sides of the relations between chunks and modules. -/
structure Placement where
  chunks : OrderedMap ChunkKey ChunkRecord := ∅
  modules : OrderedMap ModuleId ModuleRecord := ∅
  deriving DecidableEq

namespace Placement

instance : Inhabited Placement := ⟨{}⟩

def require (p : Placement) (c : ChunkKey) : Except GraphError ChunkRecord :=
  match p.chunks.get? c with
  | some r => .ok r
  | none => .error (.chunkNotPlaced c)

def contains (p : Placement) (c : ChunkKey) : Bool := p.chunks.contains c

/-- The record of a module, empty for one that is not known. -/
def moduleRecord (p : Placement) (m : ModuleId) : ModuleRecord := (p.modules.get? m).getD {}

/-- Gives a chunk an empty record if it has none. -/
def addChunk (p : Placement) (c : ChunkKey) : Placement :=
  if p.contains c then p else { p with chunks := p.chunks.insert c {} }

/-- Makes a module known. What is known of it stays. -/
def addModule (p : Placement) (m : ModuleId) : Placement :=
  { p with modules := p.modules.insert m (p.moduleRecord m) }

/-- Changes the records of one chunk and one module together; fails on a chunk without record. -/
def update (p : Placement) (c : ChunkKey) (m : ModuleId) (onChunk : ChunkRecord → ChunkRecord)
    (onModule : ModuleRecord → ModuleRecord) : Except GraphError Placement := do
  let r ← p.require c
  return { chunks := p.chunks.insert c (onChunk r)
           modules := p.modules.insert m (onModule (p.moduleRecord m)) }

def connect (p : Placement) (c : ChunkKey) (m : ModuleId) : Except GraphError Placement :=
  p.update c m (fun r => { r with modules := r.modules.insert m })
    fun r => { r with chunks := r.chunks.insert c }

/-- Connects a chunk to modules one after another. A failure leaves those before it connected. -/
def connectEach (p : Placement) (c : ChunkKey) : List ModuleId → Placement × Except GraphError Unit
  | [] => (p, .ok ())
  | m :: ms =>
    match p.connect c m with
    | .ok p => p.connectEach c ms
    | .error e => (p, .error e)

/-- Takes a module out of a chunk. As an entry module or a runtime module it stays. -/
def disconnect (p : Placement) (c : ChunkKey) (m : ModuleId) : Except GraphError Placement :=
  p.update c m (fun r => { r with modules := r.modules.erase m })
    fun r => { r with chunks := r.chunks.erase c }

/-- Makes a module an entry module of a chunk, starting the entrypoint `g`. -/
def connectEntry (p : Placement) (c : ChunkKey) (m : ModuleId) (g : GroupKey) :
    Except GraphError Placement :=
  p.update c m (fun r => { r with entryModules := r.entryModules.insert m g })
    fun r => { r with entryIn := r.entryIn.insert c }

/-- Makes a module no longer an entry module of a chunk. -/
def disconnectEntry (p : Placement) (c : ChunkKey) (m : ModuleId) : Except GraphError Placement :=
  p.update c m (fun r => { r with entryModules := r.entryModules.erase m })
    fun r => { r with entryIn := r.entryIn.erase c }

def connectRuntime (p : Placement) (c : ChunkKey) (m : ModuleId) : Except GraphError Placement :=
  p.update c m (fun r => { r with runtimeModules := r.runtimeModules.insert m })
    fun r => { r with runtimeIn := r.runtimeIn.insert c }

/-- Adds to what a chunk needs at load time. Needs are never taken back. -/
def addNeeds (p : Placement) (c : ChunkKey) (needs : RuntimeNeeds) :
    Except GraphError Placement := do
  let r ← p.require c
  return { p with chunks := p.chunks.insert c { r with needs := r.needs.union needs } }

/-- Drops all mention of a chunk in the records of modules. -/
def forgetIn (p : Placement) (c : ChunkKey) (ms : List ModuleId) : Placement :=
  { p with modules := ms.foldl (fun t m => t.modify m (·.forget c)) p.modules }

/-- Drops the record of a chunk and all mention of it. -/
def removeChunk (p : Placement) (c : ChunkKey) : Placement :=
  match p.chunks.get? c with
  | none => p
  | some r =>
    { p.forgetIn c (r.modules.toList ++ r.entryModules.keys ++ r.runtimeModules.toList) with
      chunks := p.chunks.erase c }

/-- Takes all modules out of a chunk; its entry and runtime modules stay. -/
def clearModules (p : Placement) (c : ChunkKey) : Except GraphError Placement := do
  let r ← p.require c
  return {
    chunks := p.chunks.insert c { r with modules := ∅ }
    modules := r.modules.toList.foldl (fun t m =>
      t.modify m fun s => { s with chunks := s.chunks.erase c }) p.modules }

/-- Takes all modules out of a chunk and the chunk out of its groups. -/
def disconnectChunk (p : Placement) (c : Chunk) (gs : Groups) :
    Except GraphError (Placement × Chunk × Groups) := do
  let p ← p.clearModules c.key
  let (c, gs) := c.detach gs
  return (p, c, gs)

def isIn (p : Placement) (m : ModuleId) (c : ChunkKey) : Bool := c ∈ (p.moduleRecord m).chunks

def isEntry (p : Placement) (m : ModuleId) : Bool := !(p.moduleRecord m).entryIn.isEmpty

/-- The modules of a chunk in their order, less those that the graph does not hold. -/
def modulesIn (p : Placement) (g : ModuleGraph) (c : ChunkKey) :
    Except GraphError (List Module) := do
  return (← p.require c).modules.toList.filterMap g.get?

end Placement

end Bundler
