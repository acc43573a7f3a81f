/-!
# Which messages are asked for
-/
namespace Bundler

def messageScopes : List String :=
  ["tern", "tern_cli", "tern_config", "tern_core", "tern_graph", "tern_plugin_html",
    "tern_plugin_limit_chunk_count"]

def messageDirectives (level : String) : String :=
  ",".intercalate (messageScopes.map fun scope => s!"{scope}={level}")

end Bundler
