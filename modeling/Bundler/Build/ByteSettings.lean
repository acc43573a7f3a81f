import Bundler.Build.Compiler
import Bundler.Text.BytePath
/-!
# Settings over paths of bytes

What becomes of a configuration, and which modules its entries get, where the working directory and
the paths of the configuration are any bytes. Entries are given as texts. A module is named by the
path of its file as this is read, so that different paths that are no texts may name one module.
-/
namespace Bundler

/-- A configuration whose paths are bytes. These stand in place of those in `rest`. -/
structure ByteConfig where
  rest : Config
  context : Option BytePath
  outputPath : BytePath

/-- The settings of a build whose paths are bytes: absolute, cleaned, and none of them read as text
yet. -/
structure ByteSettings where
  context : BytePath
  mode : Mode
  entry : Entries
  outputPath : BytePath
  publicPath : String
  builtins : Builtins
  plugins : List PluginEntry

namespace ByteSettings

/-- The settings that a configuration without faults stands for in a working directory. -/
def resolve (c : ByteConfig) (cwd : BytePath) : ByteSettings :=
  let context := (c.context.elim cwd cwd.join).clean
  { context
    mode := c.rest.mode
    entry := c.rest.entry
    outputPath := (context.join c.outputPath).clean
    publicPath := c.rest.output.publicPath
    builtins := c.rest.builtins
    plugins := c.rest.plugins }

/-- A configuration is checked before the working directory is, which only has to be absolute: it is
not looked up. -/
def ofConfig (c : ByteConfig) (cwd : BytePath) : Except BuildError ByteSettings := do
  (c.rest.validate).mapError .config
  if !cwd.isAbsolute then
    throw (.invalidOptions s!"working directory must be absolute, got {cwd.lossy}")
  return resolve c cwd

/-- The cleaned path of a file seen from the context. -/
def locate (s : ByteSettings) (request : String) : BytePath :=
  (s.context.join (.ofText request)).clean

/-- The module of the file that a request means. -/
def moduleFor (s : ByteSettings) (info : BytePath → Except FileError FileInfo)
    (request : String) : Module :=
  Compiler.entryModule (s.locate request).lossy (info (s.locate request))

/-- Gives every entry its module. -/
def seed (s : ByteSettings) (info : BytePath → Except FileError FileInfo) (g : ModuleGraph) :
    ModuleGraph × List (String × ModuleId) :=
  Compiler.seedWith (s.moduleFor info) s.entry g

end ByteSettings

end Bundler
