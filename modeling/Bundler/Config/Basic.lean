import Bundler.Json.Basic
import Bundler.Ordered.Map
import Bundler.Ordered.NameMap
/-!
# Configurations

What a configuration says: the entries by name, the mode, where output goes, the built-in plugins,
further plugins by their registered names, and profiles, which are partial configurations kept as
JSON values until one is chosen.
-/
namespace Bundler

/-- What the output is meant for. -/
inductive Mode where
  | development | production | none
  deriving DecidableEq, Repr, Inhabited

namespace Mode

def all : List Mode := [development, production, none]

def word : Mode → String
  | development => "development"
  | production => "production"
  | none => "none"

/-- The mode of a word. Upper and lower case are different. -/
def ofWord? (w : String) : Option Mode := all.find? (·.word = w)

theorem ofWord?_word (m : Mode) : ofWord? m.word = some m := by
  cases m <;> decide

end Mode

/-- The path of each entry by the entry's name, in the order in which they are given. -/
abbrev Entries := OrderedMap String String

/-- Where output goes and how pages refer to it. -/
structure Output where
  /-- The output directory, seen from the context. -/
  path : String := "dist"
  /-- What is put before file names in URLs. -/
  publicPath : String := ""
  deriving DecidableEq

/-- A page to be written from a template, which is seen from the context. -/
structure HtmlPage where
  template : String
  filename : String := "index.html"
  title : Option String := none
  /-- The entries whose files the page loads; all if not given. -/
  chunks : Option (List String) := none
  deriving DecidableEq

/-- How many chunks there may be, and the constants of the size model where they are given. -/
structure LimitSettings where
  maxChunks : UInt32
  chunkOverhead : Option UInt64 := none
  entryChunkMultiplicator : Option UInt64 := none
  deriving DecidableEq

/-- The settings of the built-in plugins. One without settings is not run. -/
structure Builtins where
  html : List HtmlPage := []
  limitChunkCount : Option LimitSettings := none
  deriving DecidableEq

/-- A plugin by its registered name. Its options are for its factory alone to understand. -/
structure PluginEntry where
  name : String
  options : Json := .null
  enabled : Bool := true
  /-- Changes to this entry under a profile. -/
  profiles : NameMap Json := ∅

/-- A configuration as it is read, before anything of it has been checked. -/
structure Config where
  context : Option String := none
  mode : Mode := .production
  entry : Entries := ∅
  output : Output := {}
  builtins : Builtins := {}
  plugins : List PluginEntry := []
  /-- Partial configurations to be laid over this one. -/
  profiles : OrderedMap String Json := ∅

/-- The name of an entry that is given as a bare path. -/
def defaultEntryName : String := "main"

end Bundler
