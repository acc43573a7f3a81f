import Bundler.Build.Hook
import Bundler.Build.Pages
import Bundler.Build.Registry
import Bundler.Plan.Limit
/-!
# Plugins

A plugin taps the entry hook when it is applied, may change chunks, as often as chunks change, and
may emit assets at the end. Plugins act in a monad of the caller's choice. The two built-in ones
limit the number of chunks and write HTML pages.
-/
namespace Bundler

/-- What a plugin does in a build. All three calls may fail, and the first failure ends the build.
-/
structure Plugin (m : Type → Type) where
  name : String
  phase : Phase := .optimize
  apply : Settings → EntryHook m → m (Except BuildError (EntryHook m))
  /-- Changes chunks and tells whether it did. -/
  optimize : Compilation → m (Except BuildError (Compilation × Bool))
  finish : Compilation → m (Except BuildError Compilation)

/-- A plugin that does nothing, for others to be made of. -/
def Plugin.idle {m : Type → Type} [Monad m] (name : String) (phase : Phase) : Plugin m where
  name
  phase
  apply _ hook := pure (.ok hook)
  optimize c := pure (.ok (c, false))
  finish c := pure (.ok c)

def limitPluginName : String := "LimitChunkCountPlugin"

/-- The limit that settings ask for; none is below one. -/
def LimitSettings.toLimit (l : LimitSettings) : Except BuildError ChunkLimit :=
  if h : 1 ≤ l.maxChunks.toNat then
    .ok {
      maxChunks := l.maxChunks.toNat
      model := ⟨l.chunkOverhead.map UInt64.toNat, l.entryChunkMultiplicator.map UInt64.toNat⟩
      positive := h }
  else
    .error (.invalidOptions
      s!"{limitPluginName}: maxChunks must be at least 1, got {l.maxChunks.toNat}")

inductive BuiltinPlugin where
  | limit (l : ChunkLimit)
  | html (pages : List HtmlPage)

namespace BuiltinPlugin

def name : BuiltinPlugin → String
  | limit _ => limitPluginName
  | html _ => htmlPluginName

/-- Chunks are merged before anything is emitted. -/
def phase : BuiltinPlugin → Phase
  | limit _ => .optimize
  | html _ => .emission

/-- One pass over the plan of a compilation. What a failing pass did to the plan is lost with the
build. -/
def limitPass (l : ChunkLimit) (c : Compilation) : Except BuildError (Compilation × Bool) :=
  match l.pass c.plan with
  | (plan, .ok changed) => .ok ({ c with plan }, changed)
  | (_, .error e) => .error (.graph e)

def writePages (pages : List HtmlPage) (c : Compilation) : Except BuildError Compilation :=
  match c.emitPages pages with
  | (c, .ok ()) => .ok c
  | (_, .error e) => .error e

/-- The built-in plugin as one that can be run. It makes no tap. -/
def plugin {m : Type → Type} [Monad m] : BuiltinPlugin → Plugin m
  | limit l =>
    { Plugin.idle limitPluginName .optimize with optimize := fun c => pure (limitPass l c) }
  | html pages =>
    { Plugin.idle htmlPluginName .emission with finish := fun c => pure (writePages pages c) }

end BuiltinPlugin

/-- The plugins of the built-in settings, the limit first. No page means no plugin for pages. -/
def Builtins.toPlugins (b : Builtins) : Except BuildError (List BuiltinPlugin) := do
  let limit ← match b.limitChunkCount with
    | some l => do pure [BuiltinPlugin.limit (← l.toLimit)]
    | none => pure []
  return limit ++ if b.html.isEmpty then [] else [.html b.html]

end Bundler
