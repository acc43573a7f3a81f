import Bundler.Build.Plugin
import Bundler.Config.Codec
import Bundler.Text.Quoted
/-!
# Plugins by name

A table of factories makes plugins out of the options of plugin entries. The built-in plugins are
registered under a short and under their full name. What the factories make is left open.
-/
namespace Bundler

/-- Makes something out of the options of a plugin entry, or says what is wrong with them. -/
abbrev Factory (α : Type) := Json → Except BuildError α

abbrev Factories (α : Type) := NameMap (Factory α)

/-- Reads options, where a fault is told as one of the plugin. -/
def readOptions {α : Type} (plugin : String) (read : Json → Json.Decoded α) (options : Json) :
    Except BuildError α :=
  (read options).mapError fun e => .invalidOptions s!"plugin `{plugin}`: {e.message}"

/-- Makes the plugin that writes pages, out of one page or a list of pages. -/
def htmlFactory : Factory BuiltinPlugin := fun options => do
  match options with
  | .array _ =>
    return .html (← readOptions htmlPluginName (Json.asList HtmlPage.shape.read) options)
  | _ => return .html [← readOptions htmlPluginName HtmlPage.shape.read options]

/-- Makes the plugin that limits chunks. Its options are those of the built-in setting. -/
def limitFactory : Factory BuiltinPlugin := fun options => do
  return .limit (← (← readOptions limitPluginName LimitSettings.shape.read options).toLimit)

namespace Factories

variable {α : Type}

/-- Registers a factory, in place of an earlier one of the same name. -/
def register (t : Factories α) (name : String) (make : Factory α) : Factories α :=
  t.insert name make

/-- The table of the built-in plugins, each under its short and under its full name. -/
def builtin : Factories BuiltinPlugin :=
  [("html", htmlFactory), (htmlPluginName, htmlFactory), ("limitChunkCount", limitFactory),
    (limitPluginName, limitFactory)].foldl (fun t f => register t f.1 f.2) ∅

def plugins {m : Type → Type} [Monad m] : Factories (Plugin m) :=
  builtin.toList.foldl
    (fun t f => t.register f.1 fun options => (f.2 options).map BuiltinPlugin.plugin) ∅

def names (t : Factories α) : List String := t.toList.map Prod.fst

/-- The table as it is shown in messages: names only, as factories cannot be shown. -/
def shown (t : Factories α) : String :=
  "PluginFactories \x7b names: " ++ Text.quotedList t.names ++ " \x7d"

/-- The plugin of an entry; nothing if the entry is disabled. -/
def create (t : Factories α) (p : PluginEntry) : Except BuildError (Option α) :=
  if !p.enabled then .ok none
  else match t.get? p.name with
    | none => .error (.unknownPlugin p.name)
    | some make => (make p.options).map some

def createAll (t : Factories α) (ps : List PluginEntry) : Except BuildError (List α) := do
  return (← ps.mapM t.create).reduceOption

end Factories

end Bundler
