/-!
# What can be wrong with a configuration

The causes for which a configuration cannot be found, read, overlaid or accepted, each with its
message.
-/
namespace Bundler

/-- As much of an operating system's error as messages depend on. -/
inductive IoKind where
  | notFound | denied | other
  deriving DecidableEq, Repr

structure IoError where
  kind : IoKind
  text : String
  deriving DecidableEq, Repr

/-- Why a file is no configuration: its name asks for no known format, or it does not follow the
format. -/
inductive ParseFault where
  | unsupportedFormat
  | malformed (detail : String)
  deriving DecidableEq, Repr

def ParseFault.message : ParseFault → String
  | unsupportedFormat => "unsupported format, expected .toml or .json"
  | malformed detail => detail

/-- Everything that can go wrong with a configuration up to the start of a build. -/
inductive ConfigError where
  | notFound (root : String)
  | parse (path : String) (fault : ParseFault)
  | invalidValue (field : String) (hint : Option String)
  | environment (detail : String)
  | unknownProfile (name : String) (available : String)
  | invalidProfileOverride (detail : String)
  | noEntries
  | schemaViolation (what : String) (hint : Option String)
  | entryNotFound (name path : String)
  | templateNotFound (path : String)
  | io (error : IoError)
  deriving DecidableEq, Repr

namespace ConfigError

def hintText : Option String → String
  | none => ""
  | some h => s!" ({h})"

def message : ConfigError → String
  | notFound root => s!"no tern configuration found in {root}"
  | parse path fault => s!"failed to parse {path}: " ++ fault.message
  | invalidValue field hint => s!"invalid config value for `{field}`" ++ hintText hint
  | environment detail => s!"invalid environment override: {detail}"
  | unknownProfile name available => s!"unknown profile `{name}` (available: {available})"
  | invalidProfileOverride detail => s!"invalid profile override: {detail}"
  | noEntries => "no entries specified"
  | schemaViolation what hint => what ++ hintText hint
  | entryNotFound name path => s!"entry `{name}` not found: {path}"
  | templateNotFound path => s!"html template not found: {path}"
  | io error => "I/O error: " ++ error.text

end ConfigError

end Bundler
