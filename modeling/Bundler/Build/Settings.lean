import Bundler.Build.Error
import Bundler.Config.Schema
import Bundler.Text.Path
/-!
# Settings of a build

An accepted configuration with all its paths made absolute and cleaned.
-/
namespace Bundler

/-- The settings that a build runs under. Only `context` and the path of `output` differ from what
the configuration says; paths of entries and templates stay as they were given. -/
structure Settings where
  context : String
  mode : Mode
  entry : Entries
  output : Output
  builtins : Builtins
  plugins : List PluginEntry

namespace Settings

/-- A relative context is one in the working directory, and a relative output path is one in the
context. The configuration is checked before the working directory is. -/
def ofConfig (c : Config) (cwd : String) : Except BuildError Settings := do
  (c.validate).mapError .config
  if !Path.isAbsolute cwd then
    throw (.invalidOptions s!"working directory must be absolute, got {cwd}")
  let context := Path.clean (c.context.elim cwd (Path.join cwd))
  return {
    context
    mode := c.mode
    entry := c.entry
    output := { c.output with path := Path.clean (Path.join context c.output.path) }
    builtins := c.builtins
    plugins := c.plugins }

/-- The cleaned path of a file seen from the context. -/
def locate (s : Settings) (path : String) : String := Path.clean (Path.join s.context path)

end Settings

end Bundler
