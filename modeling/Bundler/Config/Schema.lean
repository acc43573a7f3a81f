import Bundler.Config.Basic
import Bundler.Config.Error
import Bundler.Text.Blank
/-!
# Acceptable configurations

What a configuration must satisfy before anything is built from it, checked without looking at a
disk. The first fault is reported, in the order entries, limit, pages, plugins.
-/
namespace Bundler

def Mode.parse (w : String) : Except ConfigError Mode :=
  match ofWord? w with
  | some m => .ok m
  | .none =>
    .error (.invalidValue "mode" (some s!"expected development, production or none, got `{w}`"))

/-- What makes a configuration unacceptable, each cause with what it is found at. -/
inductive SchemaFault where
  | noEntries
  | emptyEntryName
  | emptyEntryPath (name : String)
  | zeroMaxChunks
  | emptyFilename
  | repeatedFilename (name : String)
  | emptyPluginName
  deriving DecidableEq, Repr

def SchemaFault.toError : SchemaFault → ConfigError
  | noEntries => .noEntries
  | emptyEntryName =>
    .schemaViolation "entry names cannot be empty" (some "give every entry a name, e.g. `main`")
  | emptyEntryPath name =>
    .schemaViolation s!"entry `{name}` has an empty path" (some "point the entry at a source file")
  | zeroMaxChunks =>
    .schemaViolation "builtins.limitChunkCount.maxChunks must be at least 1"
      (some "use a value greater than or equal to 1")
  | emptyFilename =>
    .schemaViolation "builtins.html filename cannot be empty"
      (some "omit `filename` to use index.html")
  | repeatedFilename name =>
    .schemaViolation s!"builtins.html emits `{name}` more than once"
      (some "give each page a distinct filename")
  | emptyPluginName =>
    .schemaViolation "plugin name cannot be empty"
      (some "reference plugins by their registered name")

namespace Config

/-- Whether a text has no characters but blanks, or none at all. -/
def isBlankText (s : String) : Bool := s.toList.all Text.isBlank

/-- The fault of an entry by its name and path. A blank name is found before a blank path. -/
def entryFault (e : String × String) : Option SchemaFault :=
  if isBlankText e.1 then some .emptyEntryName
  else if isBlankText e.2 then some (.emptyEntryPath e.1)
  else none

/-- The first fault of a list of pages, after pages with the file names `before`. -/
def pageFault (before : List String) : List HtmlPage → Option SchemaFault
  | [] => none
  | p :: ps =>
    if isBlankText p.filename then some .emptyFilename
    else if p.filename ∈ before then some (.repeatedFilename p.filename)
    else pageFault (p.filename :: before) ps

def fault? (c : Config) : Option SchemaFault :=
  if c.entry.isEmpty then some .noEntries
  else
    (c.entry.toList.findSome? entryFault).or <|
    (if c.builtins.limitChunkCount.any (·.maxChunks < 1) then some .zeroMaxChunks else none).or <|
    (pageFault [] c.builtins.html).or <|
    if c.plugins.any (fun p => isBlankText p.name) then some .emptyPluginName else none

def validate (c : Config) : Except ConfigError Unit :=
  match c.fault? with
  | some f => .error f.toError
  | none => .ok ()

end Config

end Bundler
