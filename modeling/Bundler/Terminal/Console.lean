/-!
# The console

What a run writes for its user. Status lines go to the error stream, in colour if that is wanted,
and not at all if the run is to be quiet; the output stream is left to results.
-/
namespace Bundler

inductive TextStyle where
  | bold | underline | green | blue | yellow
  deriving DecidableEq, Repr

namespace TextStyle

def sequence (code : Nat) : String := s!"\x1b[{code}m"

def start : TextStyle → Nat
  | bold => 1
  | underline => 4
  | green => 32
  | blue => 34
  | yellow => 33

/-- The code that ends a style: colours fall back to the default colour, other styles end all. -/
def stop : TextStyle → Nat
  | bold | underline => 0
  | green | blue | yellow => 39

def apply (s : TextStyle) (text : String) : String := sequence s.start ++ text ++ sequence s.stop

end TextStyle

/-- What has been written so far to the two streams, and how. -/
structure Console where
  quiet : Bool := false
  colors : Bool := false
  out : String := ""
  err : String := ""

namespace Console

/-- A text in styles, the last one outermost; plain without colours. -/
def styled (k : Console) (styles : List TextStyle) (text : String) : String :=
  if k.colors then styles.foldl (fun text s => s.apply text) text else text

/-- A line of a result, which is also written if the run is to be quiet. -/
def print (k : Console) (line : String) : Console := { k with out := k.out ++ line ++ "\n" }

/-- A line on the error stream, dropped if the run is to be quiet. -/
def note (k : Console) (line : String) : Console :=
  if k.quiet then k else { k with err := k.err ++ line ++ "\n" }

def success (k : Console) (text : String) : Console :=
  k.note (k.styled [.green, .bold] "✓" ++ " " ++ text)

def info (k : Console) (text : String) : Console :=
  k.note (k.styled [.blue, .bold] "ℹ" ++ " " ++ text)

def warning (k : Console) (text : String) : Console :=
  k.note (k.styled [.yellow, .bold] "⚠" ++ " " ++ k.styled [.yellow] text)

end Console

end Bundler
