/-!
# Editions of TOML

Two editions of the language are read. The second one lets a writer do more: tables in braces may
take several lines, a time of day may leave out its seconds, and there are two more escapes. The
readers of the two also settle differently what neither edition lays down: how deep values may be
nested, how an end of line in a string reads, and which numbers are too large.
-/
namespace Bundler.Toml

/-- The first edition is the one of overrides, the second the one of configurations. -/
inductive Edition where
  | v1_0
  | v1_1
  deriving DecidableEq, Repr

namespace Edition

/-- How deep values may be nested, and how many parts a key may have. -/
def maxDepth : Edition → Nat
  | v1_0 => 79
  | v1_1 => 80

/-- How a carriage return and a line feed in a string read: as a line feed alone, or as they are
written. -/
def lineEnd : Edition → List Char
  | v1_0 => ['\n']
  | v1_1 => ['\r', '\n']

/-- Whether the value of a number shows that it is too large. The first edition lets one below
zero pass as an infinity. -/
def isTooLarge (e : Edition) (f : Float) : Bool :=
  match e with
  | v1_0 => f.isInf && 0.0 < f
  | v1_1 => f.isInf

end Edition

end Bundler.Toml
