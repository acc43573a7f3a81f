import Bundler.Command.Run
/-!
# The program

Reads from the system what an invocation asks about, runs it on that, and writes what has changed
back: new directories and files, the two streams, and the exit code.
-/
namespace Bundler.Program

/-- What stands at a path of the system whose directory is there. A directory cannot be read as a
file, and is told by that. -/
def nodeAt (path : String) : IO (Option DiskNode) := do
  try
    return some (.file (← IO.FS.readBinFile path))
  catch
    | .inappropriateType .. => return some .directory
    | _ => return none

def pathOf (p : DiskPlace) : String := "/" ++ "/".intercalate p

/-- Adds to a disk what stands at the places that a path leads through, up to one that is no
directory. -/
def gatherFrom (d : Disk) (place : DiskPlace) : List String → IO Disk
  | [] => return d
  | part :: rest => do
    if part = "" ∨ part = "." then gatherFrom d place rest
    else if part = ".." then gatherFrom d place.dropLast rest
    else
      let place := place ++ [part]
      match ← nodeAt (pathOf place) with
      | some .directory =>
        gatherFrom { d with nodes := d.nodes.insert place .directory } place rest
      | some node => return { d with nodes := d.nodes.insert place node }
      | none => return d

def gather (d : Disk) (path : String) : IO Disk :=
  let cwd := if Path.isAbsolute path then [] else d.cwd
  gatherFrom d cwd (Path.parts path)

def gatherAll (d : Disk) (paths : List String) : IO Disk := paths.foldlM gather d

/-- Writes to the system what a disk has and an earlier one has not. -/
def writeBack (before after : Disk) : IO Unit :=
  after.nodes.toList.forM fun (place, node) =>
    match node, before.nodes.get? place with
    | .directory, none => IO.FS.createDirAll (pathOf place)
    | .directory, some _ => pure ()
    | .file body, some (.file old) =>
      if body.data = old.data then pure () else IO.FS.writeBinFile (pathOf place) body
    | .file body, _ => IO.FS.writeBinFile (pathOf place) body

/-- All variables that a run looks at. -/
def variableNames : List String :=
  ["TERN_MODE", "TERN_CONTEXT", "TERN_OUTPUT__PATH", "TERN_OUTPUT__PUBLIC_PATH",
    "TERN_MAX_CHUNKS", "NO_COLOR", "FORCE_COLOR"]

/-- Reads the variables that are set. One that is set to the empty text is among them. -/
def environment : IO Environment := do
  let set ← variableNames.filterMapM fun name => do
    return (← IO.getEnv name).map fun text => (name, text)
  return .ofList set

/-- Writes out what has been told and answers the exit code: 1 for a run that failed. -/
def finish (k : Console) (failure : Option RunFailure) : IO UInt32 := do
  IO.print k.out
  IO.eprint k.err
  match failure with
  | none => return 0
  | some e =>
    IO.eprintln ("Error: " ++ e.report)
    return 1

/-- A disk with all that an invocation reads. The configuration is read first, since it names the
other files. -/
def gatherFor (d : Disk) (env : Environment) (cwd : String) (file profile : Option String) :
    IO Disk := do
  let d ← gatherAll d (cwd :: Run.configPaths cwd file)
  match Run.loadConfig d env cwd file profile with
  | .ok c => gatherAll d (Run.namedPaths cwd c)
  | .error _ => return d

/-- Builds unless changing chunks takes more rounds, and answers the exit code or how many rounds to
allow next. -/
def tryBuild (env : Environment) (cwd : String) (k : Console) (o : BuildOptions) (start : Nat)
    (disk : Disk) (again : Nat) : IO (Nat ⊕ UInt32) := do
  let disk ← match Run.compileAll disk env cwd o again with
    | .ok (some c) => gatherAll disk (c.assets.keys.map (Path.join c.settings.output.path))
    | _ => pure disk
  match Run.build ⟨disk, k⟩ env cwd o again with
  | (_, .ok none) => return .inl (2 * again + 1)
  | (scene, .ok (some built)) =>
    writeBack disk scene.disk
    let elapsed := Duration.ofParts 0 ((← IO.monoNanosNow) - start)
    return .inr (← finish (built.present o.json elapsed.text scene.console) none)
  | (scene, .error e) =>
    writeBack disk scene.disk
    return .inr (← finish scene.console (some e))

/-- Builds, with more rounds allowed each time, until the number of rounds does not matter. -/
def build (env : Environment) (cwd : String) (k : Console) (o : BuildOptions) : IO UInt32 := do
  let start ← IO.monoNanosNow
  let disk ← gatherFor { cwd := (Path.cleanParts cwd) } env cwd o.config o.profile
  repeatM (tryBuild env cwd k o start disk) 0

/-- Checks. Nothing is written back, as a check writes nothing. -/
def check (env : Environment) (cwd : String) (k : Console) (file profile : Option String) :
    IO UInt32 := do
  let disk ← gatherFor { cwd := (Path.cleanParts cwd) } env cwd file profile
  match Run.check ⟨disk, k⟩ env cwd file profile with
  | (scene, .ok _) => finish scene.console none
  | (scene, .error e) => finish scene.console (some e)

end Bundler.Program

open Bundler in
/-- The exit code is 2 for words that cannot be read. -/
def main (words : List String) : IO UInt32 := do
  match Invocation.ofWords words with
  | .error fault =>
    if fault = .helpAsked ∨ fault = .versionAsked then
      IO.println fault.message
      return 0
    else
      IO.eprintln ("error: " ++ fault.message)
      return 2
  | .ok i =>
    let env ← Program.environment
    let cwd := (← IO.currentDir).toString
    let console := Run.console env i
    match i.command with
    | .build o => Program.build env cwd console o
    | .check file profile => Program.check env cwd console file profile
