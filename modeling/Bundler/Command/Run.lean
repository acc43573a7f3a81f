import Bundler.Build.Compiler
import Bundler.Build.Report
import Bundler.Command.Assets
import Bundler.Command.Invocation
import Bundler.Config.Discovery
import Bundler.Json.Printer
import Bundler.Terminal.Summary
/-!
# Runs

Running a command on a disk. Settings come from the file of the configuration, then from the chosen
profile, then from the environment, then from the options, each over those before. A build writes
its assets to the disk and is reported afterwards; a check only says whether a build could start.
-/
namespace Bundler

namespace BuildOptions

/-- The configuration with the settings that the options give; an output directory is seen from
`cwd`. -/
def apply (o : BuildOptions) (cwd : String) (c : Config) : Config :=
  let c := { c with
    mode := o.mode.getD c.mode
    output := { c.output with path := (o.outDir.map (Path.join cwd)).getD c.output.path } }
  c.limitTo o.maxChunks

end BuildOptions

namespace Run

/-- The configuration named by an option, or else found in `cwd`, under a profile and with the
overrides of the environment. -/
def loadConfig (d : Disk) (env : Environment) (cwd : String) (file profile : Option String) :
    Except RunFailure Config :=
  match file with
  | some file =>
    let path := Path.join cwd file
    (do (← Config.load d path).layered profile env).mapError fun e =>
      (RunFailure.config e).withPath path
  | none => (do (← Config.loadFrom d cwd).layered profile env).mapError .config

/-- Where the configuration may stand: at the named file alone, or under each known name in `cwd`.
-/
def configPaths (cwd : String) : Option String → List String
  | some file => [Path.join cwd file]
  | none => (Config.fileNames ++ [Config.packageFileName]).map (Path.join cwd)

/-- The paths that a configuration names, as they are written and cleaned. -/
def namedPaths (cwd : String) (c : Config) : List String :=
  let named := (c.entry.values ++ c.builtins.html.map HtmlPage.template).map
    (Path.join (c.context.getD cwd))
  named ++ named.map Path.clean

/-- The compiler of a configuration, with the built-in factories and no plugin besides. -/
def compilerOf (d : Disk) (cwd : String) (c : Config) : Except RunFailure (Compiler Id) := do
  let settings ← (Settings.ofConfig c cwd).mapError .build
  let factories : Factories (Plugin Id) := .plugins
  (Compiler.ofSettings settings [] factories d.view).mapError .build

/-- What a finished build leaves to be told. -/
structure Built where
  stats : Stats
  outDir : String

/-- What a run changes: the disk and what has been told. -/
structure Scene where
  disk : Disk
  console : Console

/-- Everything up to the assets of a build; `none` if changing chunks takes more rounds. -/
def compileAll (d : Disk) (env : Environment) (cwd : String) (o : BuildOptions) (again : Nat) :
    Except RunFailure (Option Compilation) := do
  let c := o.apply cwd (← loadConfig d env cwd o.config o.profile)
  (c.validateOn d cwd).mapError .config
  ((← compilerOf d cwd c).compile again).run.mapError .build

/-- Builds and writes the assets; without effect if changing chunks takes more rounds. -/
def build (s : Scene) (env : Environment) (cwd : String) (o : BuildOptions) (again : Nat) :
    Scene × Except RunFailure (Option Built) :=
  match compileAll s.disk env cwd o again with
  | .error e => (s, .error e)
  | .ok none => (s, .ok none)
  | .ok (some c) =>
    let console :=
      if c.assets.isEmpty then
        s.console.warning "No assets emitted; add `builtins.html` to generate pages"
      else s.console
    let outDir := c.settings.output.path
    match Disk.sink.writeAssets s.disk outDir c.assets with
    | (disk, .error e) => (⟨disk, console⟩, .error e)
    | (disk, .ok ()) =>
      (⟨disk, console⟩,
        (c.stats.map fun stats => some ⟨stats, outDir⟩).mapError (.build ∘ .graph))

/-- Tells of a build, either as JSON or as a summary with a closing line. The time it took is only
in the summary. -/
def Built.present (b : Built) (json : Bool) (elapsed : String) (k : Console) : Console :=
  if json then k.print b.stats.toJson.pretty
  else
    (k.summary b.stats elapsed).success
      s!"Built {b.stats.chunks.length} chunk(s) into {b.outDir}"

/-- Everything that a check looks at. The plugins are made and applied, though none of them runs. -/
def checked (d : Disk) (env : Environment) (cwd : String) (file profile : Option String) :
    Except RunFailure (Config × List String) := do
  let c ← loadConfig d env cwd file profile
  (c.validateOn d cwd).mapError .config
  return (c, (← compilerOf d cwd c).plugins.map Plugin.name)

/-- Checks and tells the number of entries, the mode and the plugins. The disk stays as it is. -/
def check (s : Scene) (env : Environment) (cwd : String) (file profile : Option String) :
    Scene × Except RunFailure (List String) :=
  match checked s.disk env cwd file profile with
  | .error e => (s, .error e)
  | .ok (c, plugins) =>
    let entries := c.entry.size
    let noun := if entries = 1 then "entry" else "entries"
    let k := s.console.success
      s!"Configuration is valid ({entries} {noun}, mode {c.mode.word})"
    let k := if plugins.isEmpty then k.info "No plugins configured"
      else k.info ("Plugins: " ++ ", ".intercalate plugins)
    ({ s with console := k }, .ok plugins)

/-- Colors have to be asked for by the environment, and both it and the invocation can refuse them.
-/
def wantsColors (env : Environment) (i : Invocation) : Bool :=
  !i.noColor && !env.contains "NO_COLOR" && env.contains "FORCE_COLOR"

def console (env : Environment) (i : Invocation) : Console :=
  { quiet := i.quiet, colors := wantsColors env i }

end Run

end Bundler
