import Bundler.Config.Overrides
import Bundler.Config.Schema
import Bundler.Files.Disk
/-!
# Configurations on a disk

A configuration is looked for in a directory under the names `tern.toml`, `tern.config.json` and
`package.json`, in this order. Its context is the directory of its file unless it names one, which
is then seen from there. A profile and the overrides of the environment are laid over it after
that. What a configuration names can be checked to be there.
-/
namespace Bundler

namespace Config

/-- The names of files that are a configuration, in the order in which they are tried. -/
def fileNames : List String := ["tern.toml", "tern.config.json"]

/-- The name of a file that may hold a configuration among other things. It is tried last. -/
def packageFileName : String := "package.json"

def packageKey : String := "tern"

/-- The configuration in a package file. A `null` counts as none. -/
def inPackage? (package : Json) : Option Json :=
  match package.field? packageKey with
  | none | some .null => none
  | some v => some v

end Config

namespace Disk

/-- The content of a file as text, which is refused unless it is UTF-8. -/
def readText (d : Disk) (path : String) : Except IoError String := do
  let bytes ← (d.read path).mapError DiskFault.toIoError
  (Text.ofUtf8 bytes).mapError fun _ => ⟨.other, "stream did not contain valid UTF-8"⟩

/-- Whether a package file has a configuration in it. One that cannot be read has none. -/
def holdsConfig (d : Disk) (path : String) : Bool :=
  match d.readText path with
  | .ok text => ((Json.parse? text).bind Config.inPackage?).isSome
  | .error _ => false

/-- The file of the configuration in a directory. The directories above it are not searched. -/
def findConfig? (d : Disk) (root : String) : Option String :=
  match (Config.fileNames.map (Path.join root)).find? d.isFile with
  | some path => some path
  | none =>
    let path := Path.join root Config.packageFileName
    if d.holdsConfig path then some path else none

end Disk

namespace Config

/-- What a text says in the format that the path of its file asks for. -/
def valueOfText (path text : String) : Except ConfigError Json :=
  let malformed := fun format => .error (.parse path (.malformed s!"invalid {format}"))
  if Path.fileName path = some packageFileName then
    match Json.parse? text with
    | none => malformed "JSON"
    | some package =>
      match inPackage? package with
      | some v => .ok v
      | none =>
        .error (.invalidValue packageKey
          (some s!"add a `{packageKey}` field to {packageFileName}"))
  else if Path.extension path = some "json" then
    match Json.parse? text with
    | some v => .ok v
    | none => malformed "JSON"
  else if Path.extension path = some "toml" then
    match Toml.read? .v1_1 text with
    | some v => .ok v
    | none => malformed "TOML"
  else .error (.parse path .unsupportedFormat)

/-- The directory from which a configuration in a file sees other paths. -/
def directoryOf (path : String) : String :=
  match Path.parent path with
  | none | some "" => "."
  | some dir => dir

/-- Reads a configuration, with its context made a path seen from the directory of the file. -/
def ofText (path text : String) : Except ConfigError Config := do
  let c ← ofJson (← valueOfText path text)
  return c.resolveContext (directoryOf path)

def load (d : Disk) (path : String) : Except ConfigError Config := do
  let text ← (d.readText path).mapError ConfigError.io
  ofText path text

def loadFrom (d : Disk) (root : String) : Except ConfigError Config :=
  match d.findConfig? root with
  | some path => load d path
  | none => .error (.notFound root)

/-- The configuration under a profile and with the overrides of the environment, which are read only
if the profile could be chosen. -/
def layered (c : Config) (profile : Option String) (env : Environment) :
    Except ConfigError Config := do
  let c ← c.materialize profile
  let o ← env.overrides
  return if o.isEmpty then c else o.apply c

/-- The first thing that a configuration names and that is not there. -/
def missing? (d : Disk) (root : String) (c : Config) : Option ConfigError :=
  let place := Path.join (c.context.getD root)
  let entry := c.entry.toList.findSome? fun (name, path) =>
    if d.exists (place path) then none else some (.entryNotFound name (place path))
  let page := c.builtins.html.findSome? fun page =>
    if d.isFile (place page.template) then none else some (.templateNotFound (place page.template))
  entry.or page

/-- Refuses a configuration with a fault, and one that names what is not there. -/
def validateOn (d : Disk) (root : String) (c : Config) : Except ConfigError Unit := do
  c.validate
  match c.missing? d root with
  | some e => throw e
  | none => return ()

end Config

end Bundler
