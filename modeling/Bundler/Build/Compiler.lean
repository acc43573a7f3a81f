import Bundler.Build.Factories
/-!
# Compilers

A compiler holds the settings of a build, its plugins in the order in which they run, and the taps
that these made when they were applied. A compilation gives every entry a module and an
entrypoint, lets the caller add to the plan, lets the plugins change chunks in whole rounds until
none does, gives ids to the chunks, and lets the plugins emit assets. The first failure ends it.
-/
namespace Bundler

/-- What a build is started from. It can be run any number of times, as no run changes it. -/
structure Compiler (m : Type → Type) where
  settings : Settings
  hook : EntryHook m
  plugins : List (Plugin m)
  files : FileView

namespace Compiler

variable {m : Type → Type} [Monad m]

/-- Applies plugins one after the other. The taps that one of them makes are there for the next to
see. -/
def applyAll (settings : Settings) (hook : EntryHook m) :
    List (Plugin m) → m (Except BuildError (EntryHook m))
  | [] => pure (.ok hook)
  | p :: ps => do
    match ← p.apply settings hook with
    | .error e => return .error e
    | .ok hook => applyAll settings hook ps

/-- Plugins by phase. Those of one phase keep the order in which they were given. -/
def inOrder (plugins : List (Plugin m)) : List (Plugin m) :=
  (plugins.foldl (fun (r : Registry (Plugin m)) p => r.add p.phase p) {}).inOrder

/-- Applies the plugins and calls the entry hook once they all are. The taps get the settings as
they came in: a tap cannot change them. -/
def create (settings : Settings) (plugins : List (Plugin m)) (files : FileView) :
    m (Except BuildError (Compiler m)) := do
  let plugins := inOrder plugins
  match ← applyAll settings {} plugins with
  | .error e => return .error e
  | .ok hook =>
    match ← hook.call settings.context settings.entry with
    | .error e => return .error e
    | .ok () => return .ok { settings, hook, plugins, files }

/-- The plugins of the settings come before those that the caller gives, and the built-in ones
before those that the settings name. None is applied if one of them cannot be made. -/
def ofSettings (settings : Settings) (plugins : List (Plugin m)) (factories : Factories (Plugin m))
    (files : FileView) : m (Except BuildError (Compiler m)) :=
  let configured := do
    let builtin ← settings.builtins.toPlugins
    return builtin.map BuiltinPlugin.plugin ++ (← factories.createAll settings.plugins)
  match configured with
  | .error e => pure (.error e)
  | .ok ps => create settings (ps ++ plugins) files

/-- The module of an entry file that the module graph does not hold: as large as the file, or of
size 0 if that cannot be read. -/
def entryModule (id : ModuleId) (info : Except FileError FileInfo) : Module :=
  let size := match info with
    | .ok info => info.size
    | .error _ => 0
  { id, sizes := SizeTable.set {} (SourceKind.ofPath id) size }

/-- Puts a module into a graph that holds none of this name. -/
def ensure (g : ModuleGraph) (m : Module) : ModuleGraph := if g.contains m.id then g else g.add m

/-- Gives every entry its module, where `moduleFor` makes the module of a request. -/
def seedWith (moduleFor : String → Module) (entries : Entries) (g : ModuleGraph) :
    ModuleGraph × List (String × ModuleId) :=
  entries.toList.foldl (fun (g, named) (name, request) =>
    (ensure g (moduleFor request), named ++ [(name, (moduleFor request).id)])) (g, [])

/-- Gives every entry of the settings its module, which is named by the path of the file. -/
def seed (settings : Settings) (files : FileView) (g : ModuleGraph) :
    ModuleGraph × List (String × ModuleId) :=
  seedWith (fun request => entryModule (settings.locate request)
    (files.info (settings.locate request))) settings.entry g

/-- The compilation before anyone has added to it: a module and an entrypoint for every entry. -/
def begin (c : Compiler m) (g : ModuleGraph) : Except GraphError Compilation := do
  let (g, entries) := seed c.settings c.files g
  let plan ← entries.foldlM Plan.enter { modules := g }
  return { settings := c.settings, files := c.files, plan }

/-- One round: every plugin gets its turn with what those before it left, whether or not they
changed anything. -/
def optimizeRound (c : Compilation) (changed : Bool) :
    List (Plugin m) → m (Except BuildError (Compilation × Bool))
  | [] => pure (.ok (c, changed))
  | p :: ps => do
    match ← p.optimize c with
    | .error e => return .error e
    | .ok (c, more) => optimizeRound c (changed || more) ps

/-- Rounds of changes until one changes nothing; `none` if that takes more rounds than these. -/
def optimizeRounds (plugins : List (Plugin m)) :
    Nat → Compilation → m (Except BuildError (Option Compilation))
  | 0, _ => pure (.ok none)
  | rounds + 1, c => do
    match ← optimizeRound c false plugins with
    | .error e => return .error e
    | .ok (c, true) => optimizeRounds plugins rounds c
    | .ok (c, false) => return .ok (some c)

/-- Lets each plugin emit its assets, up to the first failure. -/
def finishAll (c : Compilation) : List (Plugin m) → m (Except BuildError Compilation)
  | [] => pure (.ok c)
  | p :: ps => do
    match ← p.finish c with
    | .error e => return .error e
    | .ok c => finishAll c ps

/-- A compilation over a module graph; `prepare` adds to it before chunks are changed. How many
rounds of changes it takes is up to the plugins. What comes of it is told once no more than `again`
of them are followed by another; until then there is `none`. -/
def compileWith (c : Compiler m) (again : Nat) (g : ModuleGraph)
    (prepare : Compilation → m (Except BuildError Compilation)) :
    m (Except BuildError (Option Compilation)) := do
  match c.begin g with
  | .error e => return .error (.graph e)
  | .ok start =>
    match ← prepare start with
    | .error e => return .error e
    | .ok ready =>
      match ← optimizeRounds c.plugins (again + 1) ready with
      | .error e => return .error e
      | .ok none => return .ok none
      | .ok (some done) =>
        return (← finishAll { done with plan := done.plan.assignIds } c.plugins).map some

/-- A compilation over the entry modules alone. -/
def compile (c : Compiler m) (again : Nat) : m (Except BuildError (Option Compilation)) :=
  c.compileWith again {} fun d => pure (.ok d)

end Compiler

end Bundler
