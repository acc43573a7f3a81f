import Bundler.Config.Error
import Bundler.Files.Basic
import Bundler.Ordered.Map
import Bundler.Text.Path
/-!
# A disk

Directories and files by the names that lead to them from the root. A path is followed part by
part, so each part before the last has to be a directory that is there, also where `..` takes it
back.
-/
namespace Bundler

/-- What can stand at a place. There are no links. -/
inductive DiskNode where
  | directory
  | file (content : ByteArray)

/-- A place on a disk: the names that lead to it. -/
abbrev DiskPlace := List String

/-- Directories and files by place; the root is always a directory. -/
structure Disk where
  cwd : DiskPlace
  nodes : OrderedMap DiskPlace DiskNode := ∅

inductive DiskFault where
  | missing | exists | notDirectory | isDirectory | nameTooLong
  /-- A path with the character zero, which ends a text for the operating system. -/
  | zeroInName
  deriving DecidableEq, Repr

namespace DiskFault

def text : DiskFault → String
  | missing => "No such file or directory (os error 2)"
  | «exists» => "File exists (os error 17)"
  | notDirectory => "Not a directory (os error 20)"
  | isDirectory => "Is a directory (os error 21)"
  | nameTooLong => "File name too long (os error 36)"
  | zeroInName => "file name contained an unexpected NUL byte"

def toIoError (f : DiskFault) : IoError := ⟨if f = missing then .notFound else .other, f.text⟩

def toFileError (path : String) (f : DiskFault) : FileError :=
  if f = missing then .notFound path else .io path f.text

end DiskFault

namespace Disk

/-- What stands at a place. The root is there on every disk. -/
def node? (d : Disk) (p : DiskPlace) : Option DiskNode :=
  if p = [] then some .directory else d.nodes.get? p

/-- Refuses a place that is no directory. -/
def enter (d : Disk) (p : DiskPlace) : Except DiskFault Unit :=
  match d.node? p with
  | some .directory => .ok ()
  | some (.file _) => .error .notDirectory
  | none => .error .missing

/-- The most bytes that one name of a path may have. -/
def maxNameSize : Nat := 255

/-- The most bytes that a whole path may have. -/
def maxPathSize : Nat := 4095

/-- One step along a path. The place has to be a directory for any step, also one that stays or goes
back. -/
def follow (d : Disk) (p : DiskPlace) (part : String) : Except DiskFault DiskPlace := do
  d.enter p
  if part.utf8ByteSize > maxNameSize then throw .nameTooLong
  return if part = "" ∨ part = "." then p else if part = ".." then p.dropLast else p ++ [part]

/-- Refuses a text that is no path at all: with the character zero, empty, or too long, separators
at its end counted. -/
def requirePath (path : String) : Except DiskFault Unit := do
  if path.toList.contains '\x00' then throw .zeroInName
  if path.isEmpty then throw .missing
  if path.utf8ByteSize > maxPathSize then throw .nameTooLong

/-- The directory that a path leads to by all its parts but the last. -/
def locateLast (d : Disk) (path : String) : Except DiskFault DiskPlace := do
  requirePath path
  let start := if Path.isAbsolute path then [] else d.cwd
  let place ← (Path.parts path).dropLast.foldlM d.follow start
  d.enter place
  return place

/-- The place that a path means; nothing need be there. -/
def locate (d : Disk) (path : String) : Except DiskFault DiskPlace := do
  d.follow (← d.locateLast path) ((Path.parts path).getLast?.getD "")

def find (d : Disk) (path : String) : Except DiskFault DiskNode := do
  match d.node? (← d.locate path) with
  | some n => return n
  | none => throw .missing

/-- Whether anything stands where a path leads. A path that cannot be followed leads to nothing. -/
def «exists» (d : Disk) (path : String) : Bool := (d.find path).toOption.isSome

def isDirectory (d : Disk) (path : String) : Bool :=
  match d.find path with
  | .ok .directory => true
  | _ => false

def isFile (d : Disk) (path : String) : Bool :=
  match d.find path with
  | .ok (.file _) => true
  | _ => false

def read (d : Disk) (path : String) : Except DiskFault ByteArray := do
  match ← d.find path with
  | .file content => return content
  | .directory => throw .isDirectory

def endsOpen (path : String) : Bool := path.toList.getLast? = some '/'

/-- A path without the separators at its end; a path of separators alone stays. -/
def unended (path : String) : String :=
  let named := String.ofList (path.toList.reverse.dropWhile (· = '/')).reverse
  if named = "" then path else named

/-- Writes a file whose directory is there. A path that ends in a separator names no file, however
long the name before it. -/
def write (d : Disk) (path : String) (content : ByteArray) : Except DiskFault Disk := do
  requirePath path
  let _ ← d.locateLast (unended path)
  if endsOpen path then throw .isDirectory
  let place ← d.locate path
  match d.node? place with
  | some .directory => throw .isDirectory
  | _ => return { d with nodes := d.nodes.insert place (.file content) }

/-- Makes one directory in a directory that is there. The name must be free. -/
def makeDirectory (d : Disk) (path : String) : Except DiskFault Disk := do
  requirePath path
  let place ← d.locate (unended path)
  match d.node? place with
  | some _ => throw .exists
  | none => return { d with nodes := d.nodes.insert place .directory }

/-- A path and those above it, up to one that has none above it. -/
def ancestors : Nat → String → List String
  | 0, _ => []
  | fuel + 1, path =>
    match Path.parent path with
    | some above => if path.isEmpty then [] else path :: ancestors fuel above
    | none => []

/-- Makes the directories of a list, each of which may be there already. What has been made before
a refusal stays. -/
def makeEach (d : Disk) : List String → Disk × Except DiskFault Unit
  | [] => (d, .ok ())
  | path :: rest =>
    match d.makeDirectory path with
    | .ok d => makeEach d rest
    | .error f => if f = .exists ∧ d.isDirectory path then makeEach d rest else (d, .error f)

/-- Goes up from a path to a directory that can be made or is there, then makes those below it. -/
def makeMissing (d : Disk) (below : List String) : List String → Disk × Except DiskFault Unit
  | [] => d.makeEach below
  | path :: above =>
    match d.makeDirectory path with
    | .ok d => d.makeEach below
    | .error .missing => d.makeMissing (path :: below) above
    | .error f => if f = .exists ∧ d.isDirectory path then d.makeEach below else (d, .error f)

/-- Makes a directory with all those on the way to it. All may be there already. -/
def makeDirectories (d : Disk) (path : String) : Disk × Except DiskFault Unit :=
  d.makeMissing [] (ancestors (path.length + 1) path)

/-- The size that a directory has on a disk with blocks of 4096 bytes. -/
def directorySize : Nat := 4096

def info (d : Disk) (path : String) : Except DiskFault FileInfo := do
  match ← d.find path with
  | .file content => return ⟨content.size, true⟩
  | .directory => return ⟨directorySize, false⟩

/-- The disk as files to be read, with faults told by the path as it was asked. -/
def view (d : Disk) : FileView where
  read path := (d.read path).mapError (DiskFault.toFileError path)
  info path := (d.info path).mapError (DiskFault.toFileError path)

end Disk

end Bundler
