import Bundler.Build.Error
/-!
# Why a run fails

A failure of a run, with the short message that other messages are built from and the report that
the user gets, which adds advice on the mistakes that are made most.
-/
namespace Bundler

/-- Every way in which a run fails, from reading its arguments to writing its assets. -/
inductive RunFailure where
  | config (error : ConfigError)
  | build (error : BuildError)
  | assetWrite (path message : String)
  | invalidArgument (text : String)
  | fileNotFound (path : String)
  | io (error : IoError)
  | custom (text : String)
  deriving DecidableEq, Repr

namespace RunFailure

def advised (text hint : String) : String := text ++ "\n\nHint: " ++ hint

/-- The text that other messages are built from. Only a failed write has advice in it already. -/
def message : RunFailure → String
  | config e => "Configuration error: " ++ e.message
  | build e => "Build error: " ++ e.message .numbers
  | assetWrite path text =>
    advised s!"Failed to write asset {path}: {text}"
      "Check output directory permissions or pass a different --out-dir"
  | invalidArgument text => s!"Invalid argument: {text}"
  | fileNotFound path => s!"File not found: {path}"
  | io e => "I/O error: " ++ e.text
  | custom text => text

/-- Names the file in place of the operating system's message that a file is missing. -/
def withPath (path : String) : RunFailure → RunFailure
  | io e => if e.kind = .notFound then fileNotFound path else io e
  | config (.io e) => if e.kind = .notFound then fileNotFound path else config (.io e)
  | e => e

def withHint (hint : String) (e : RunFailure) : RunFailure := custom (advised e.message hint)

def inContext (text : String) (e : RunFailure) : RunFailure := custom (s!"{text}: " ++ e.message)

/-- The report of a faulty configuration. Three mistakes get advice, all others their message. -/
def configReport : ConfigError → String
  | .notFound root =>
    advised s!"No tern configuration found in {root}" "Create a tern.toml or pass --config <path>"
  | .entryNotFound name path =>
    advised s!"Entry `{name}` not found: {path}" "Check the `entry` table of your config"
  | .unknownProfile name available =>
    advised s!"Unknown profile `{name}`" s!"Available profiles: {available}"
  | e => (config e).message

/-- The report that the user gets. A build that fails by its configuration is told like the
configuration's own fault. -/
def report : RunFailure → String
  | config e => configReport e
  | build (.config e) => configReport e
  | build (.unknownPlugin name) =>
    advised s!"Unknown plugin `{name}`" "Built-in plugins are `html` and `limitChunkCount`"
  | e => e.message

end RunFailure

end Bundler
