import Bundler.Config.Error
import Bundler.Files.Basic
import Bundler.GraphError
/-!
# Why a build fails
-/
namespace Bundler

/-- What a plugin reports. A template that is missing is told apart from one that cannot be read. -/
inductive PluginFault where
  | message (text : String)
  | templateNotFound (path : String)
  | templateUnreadable (path : String) (source : FileError)
  deriving DecidableEq, Repr

def PluginFault.text : PluginFault → String
  | message text => text
  | templateNotFound path => s!"HTML template not found: {path}"
  | templateUnreadable path source => s!"failed to read HTML template {path}: " ++ source.message

/-- Every way in which a build fails. Keys of chunks and groups are not written out in it. -/
inductive BuildError where
  | config (error : ConfigError)
  | graph (error : GraphError)
  | file (error : FileError)
  | hook (hook tap message : String)
  | plugin (name : String) (fault : PluginFault)
  | unknownPlugin (name : String)
  | assetConflict (name : String)
  | invalidOptions (what : String)
  deriving DecidableEq, Repr

/-- The text of an error, with keys written as `names` says. -/
def BuildError.message (names : KeyNames) : BuildError → String
  | config error => error.message
  | graph error => error.message names
  | file error => error.message
  | hook name tap text => s!"{name} tap `{tap}` failed: {text}"
  | plugin name fault => s!"plugin `{name}` failed: " ++ fault.text
  | unknownPlugin name => s!"unknown plugin `{name}`"
  | assetConflict name => s!"asset `{name}` was emitted twice with different content"
  | invalidOptions what => s!"invalid compiler options: {what}"

end Bundler
