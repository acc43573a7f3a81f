import Bundler.Build.Compilation
import Bundler.Terminal.Console
import Bundler.Terminal.Measure
/-!
# The summary of a build

A table with a line for every chunk and every asset, between two rules. The first column is as
wide as the longest id or name is in bytes.
-/
namespace Bundler

namespace Summary

/-- Fills up with blanks, counting characters. A longer text stays. -/
def padRight (width : Nat) (s : String) : String := s.pushn ' ' (width - s.length)

def padLeft (width : Nat) (s : String) : String := "".pushn ' ' (width - s.length) ++ s

/-- A number with a noun that takes an `s` unless the number is one. -/
def counted (n : Nat) (word : String) : String := if n = 1 then s!"{n} {word}" else s!"{n} {word}s"

/-- The width of the first column, in bytes of the longest id or name. -/
def width (s : Stats) : Nat :=
  ((s.chunks.filterMap ChunkStats.id ++ s.assets.map AssetStats.name).map String.utf8ByteSize).foldl
    max 0

/-- The columns that chunks and assets have in common. -/
def columns (width : Nat) (name kind : String) (size : Nat) : String :=
  padRight width name ++ "  " ++ padRight 7 kind ++ "  " ++ padLeft 10 (sizeText size)

/-- A chunk without an id is shown as a question mark. -/
def chunkLine (width : Nat) (c : ChunkStats) : String :=
  columns width (c.id.getD "?") (if c.initial then "initial" else "async") c.size ++ "  " ++
    counted c.modules.length "module" ++ "  [" ++ ", ".intercalate c.files ++ "]"

def assetLine (width : Nat) (a : AssetStats) : String := columns width a.name "asset" a.size

def lines (s : Stats) : List String :=
  s.chunks.map (chunkLine (width s)) ++ s.assets.map (assetLine (width s))

def rule : String := "".pushn '─' 80

def total (s : Stats) (elapsed : String) : String :=
  counted s.chunks.length "chunk" ++ ", " ++ counted s.assets.length "asset" ++ " in " ++ elapsed

end Summary

def Console.summary (k : Console) (s : Stats) (elapsed : String) : Console :=
  let k := (k.note ("\n" ++ k.styled [.bold, .underline] "Build Summary")).note Summary.rule
  let k := (Summary.lines s).foldl (fun k line => k.note ("  " ++ line)) k
  (k.note Summary.rule).note (k.styled [.bold] (Summary.total s elapsed))

end Bundler
