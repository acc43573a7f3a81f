import Bundler.Ordered.Walk
import Bundler.GraphError
/-!
# The module graph

Modules by name, in the order in which they were added, with their outgoing dependencies. A
dependency may name a module that is not there.
-/
namespace Bundler

structure ModuleGraph where
  modules : OrderedMap ModuleId Module := ∅
  deriving DecidableEq

namespace ModuleGraph

instance : Inhabited ModuleGraph := ⟨{}⟩

def get? (g : ModuleGraph) (id : ModuleId) : Option Module := g.modules.get? id

def contains (g : ModuleGraph) (id : ModuleId) : Bool := g.modules.contains id

/-- Adds a module, in place of one of the same name. -/
def add (g : ModuleGraph) (m : Module) : ModuleGraph := ⟨g.modules.insert m.id m⟩

/-- The graph of a list of modules, of which the last of each name counts. -/
def ofList (ms : List Module) : ModuleGraph := ms.foldl add {}

/-- Records that `source` depends on `target`. -/
def depend (g : ModuleGraph) (source target : ModuleId) : Except GraphError ModuleGraph :=
  match g.get? source with
  | some m => .ok (g.add (m.dependOn target))
  | none => .error (.moduleNotFound source)

/-- The dependencies of a module in their order, also those that the graph does not hold. -/
def dependencies (g : ModuleGraph) (id : ModuleId) : Except GraphError (List ModuleId) :=
  match g.get? id with
  | some m => .ok m.dependencies.toList
  | none => .error (.moduleNotFound id)

/-- The modules that can be reached from a module, itself included, breadth first. Dependencies
that are not in the graph are passed over. -/
def reachable (g : ModuleGraph) (entry : ModuleId) : Except GraphError (List ModuleId) :=
  if g.contains entry then
    .ok ((g.modules.walk (fun _ m => m.dependencies.toList) [entry]).filter g.contains)
  else .error (.moduleNotFound entry)

/-- The size of modules together, cut off. A module named twice counts twice, one that the graph
does not hold counts nothing. -/
def totalSize (g : ModuleGraph) (ids : List ModuleId) : Nat :=
  Size.sum ((ids.filterMap g.get?).map Module.totalSize)

end ModuleGraph

end Bundler
