import Bundler.Module.Roots
import Bundler.Placement.Basic
import Bundler.Text.LowerCase
/-!
# Questions about placed chunks

What a chunk holds and how large it is, which of its modules are its roots, which chunks must be
there before its entry modules can run, and the order of chunks in which merging is decided.

The size model: a chunk costs a constant and the sizes of its modules, which count with a weight
if the page loads the chunk itself.
-/
namespace Bundler

/-- The constants of the size model. One that is set to zero is taken as zero. -/
structure SizeModel where
  /-- What every chunk costs, 10000 unless set. -/
  overhead : Option Nat := none
  /-- The weight of modules in chunks that the page loads itself, 10 unless set. -/
  initialWeight : Option Nat := none
  deriving DecidableEq

namespace SizeModel

/-- The size of a chunk whose modules have a size. -/
def cost (s : SizeModel) (initial : Bool) (modules : Nat) : Nat :=
  Size.add (s.overhead.getD 10000)
    (Size.mul modules (if initial then s.initialWeight.getD 10 else 1))

end SizeModel

/-- The order of code points, as one that can be sorted by. -/
def stringLe (a b : String) : Bool := a ≤ b

/-- The order of names that does not tell capital from small letters. -/
def nameLe (a b : String) : Bool := Text.compareNames a b != .gt

namespace Placement

def sortedModulesIn (p : Placement) (g : ModuleGraph) (c : ChunkKey) :
    Except GraphError (List Module) := do
  return (← p.modulesIn g c).mergeSort fun a b => stringLe a.id b.id

def modulesOfKind (p : Placement) (g : ModuleGraph) (c : ChunkKey) (k : SourceKind) :
    Except GraphError (List Module) := do
  return (← p.modulesIn g c).filter (·.hasKind k)

/-- The size of the modules of a chunk. -/
def modulesSize (p : Placement) (g : ModuleGraph) (c : ChunkKey) : Except GraphError Nat := do
  return g.totalSize (← p.require c).modules.toList

def chunkSize (p : Placement) (g : ModuleGraph) (gs : Groups) (s : SizeModel) (c : Chunk) :
    Except GraphError Nat := do
  return s.cost (c.canBeInitial gs) (← p.modulesSize g c.key)

/-- The size that the chunk of a merge will have. A module in both chunks counts once, and one chunk
that the page loads is enough for the weight. -/
def mergedSize (p : Placement) (g : ModuleGraph) (gs : Groups) (s : SizeModel) (a b : Chunk) :
    Except GraphError Nat := do
  let ra ← p.require a.key
  let rb ← p.require b.key
  return s.cost (a.canBeInitial gs || b.canBeInitial gs)
    (g.totalSize (ra.modules.insertAll rb.modules.toList).toList)

/-- The modules of a chunk from which all its modules can be reached inside it, sorted. -/
def rootModules (p : Placement) (g : ModuleGraph) (c : ChunkKey) :
    Except GraphError (List ModuleId) := do
  let ms := (← p.require c).modules.toList.mergeSort stringLe
  return rootsOf stringLe ms fun m => (g.get? m).elim [] (·.dependencies.toList)

/-- Whether some entrypoint started in the chunk has other chunks too. -/
def hasEntryDependents (p : Placement) (gs : Groups) (c : ChunkKey) : Except GraphError Bool := do
  (← p.require c).entryModules.values.anyM fun g => do
    return (← gs.require g).chunks.any (· ≠ c)

/-- The chunks other than runtime chunks that must be there before the entry modules of the
chunk's entrypoints can run. -/
def entryDependents (p : Placement) (cs : Chunks) (gs : Groups) (c : ChunkKey) :
    Except GraphError (OrderedSet ChunkKey) := do
  let chunk ← cs.require c
  chunk.groups.toList.foldlM (fun found k => do
    let group ← gs.require k
    if !group.isInitial then return found
    let some entryChunk := group.entryChunk | return found
    (← p.require entryChunk).entryModules.values.foldlM (fun found started => do
      (← gs.require started).chunks.foldlM (fun found d => do
        let dependent ← cs.require d
        return if d ≠ c ∧ d ≠ entryChunk ∧ !dependent.hasRuntime gs then found.insert d
          else found) found) found) ∅

/-- The verdict of a test on every chunk that the chunk's groups and those below them hold, by
the ids of these chunks. -/
def verdicts (cs : Chunks) (gs : Groups) (c : ChunkKey) (test : ChunkKey → Bool) :
    Except GraphError (OrderedMap String Bool) := do
  let chunk ← cs.require c
  (chunk.referenced gs).toList.foldlM (fun found k => do
    let id ← (← cs.require k).requireId
    return found.insert id (test k)) ∅

/-- The names of a chunk's modules in an order that does not tell capital from small letters. -/
def sortedIds (r : ChunkRecord) : List ModuleId := r.modules.toList.mergeSort nameLe

/-- The order of sorted module lists: longer lists first, then by their names. -/
def compareSorted (a b : List ModuleId) : Ordering :=
  (compare b.length a.length).then (Text.compareNameLists a b)

/-- The order of chunks: more modules first, then by their sorted names. -/
def compareChunks (p : Placement) (a b : ChunkKey) : Except GraphError Ordering := do
  return compareSorted (sortedIds (← p.require a)) (sortedIds (← p.require b))

/-- Chunks in chunk order. Those that compare equal keep their places. -/
def sortChunks (p : Placement) (cs : List ChunkKey) : Except GraphError (List ChunkKey) := do
  let keyed ← cs.mapM fun c => do return (c, sortedIds (← p.require c))
  return (keyed.mergeSort fun a b => compareSorted a.2 b.2 != .gt).map Prod.fst

end Placement

end Bundler
