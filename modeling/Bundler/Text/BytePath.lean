import Bundler.Text.Path
import Bundler.Text.Utf8
/-!
# Paths as bytes

A path of the system is bytes, which need not be UTF-8. Only the bytes of `/` and `.` mean something
in a path, so it is joined and cleaned as the text that has a character for every byte. As a text
for people, or as a name, it is read as UTF-8 with losses.
-/
namespace Bundler

/-- A path as the system has it: any bytes, also ones that are no UTF-8. -/
structure BytePath where
  bytes : List UInt8
  deriving DecidableEq

namespace BytePath

/-- The text with one character for every byte, the one with the number of the byte. -/
def spelling (p : BytePath) : String := String.ofList (p.bytes.map fun b => Char.ofNat b.toNat)

/-- The path with one byte for every character. Only characters below 256 are read back. -/
def ofSpelling (s : String) : BytePath := ⟨s.toList.map fun c => c.toNat.toUInt8⟩

/-- The path that a text is. -/
def ofText (s : String) : BytePath := ⟨s.toUTF8.toList⟩

/-- The text that a path is read as: itself if the path is a text, and else with replacement
characters. -/
def lossy (p : BytePath) : String := Text.lossyUtf8 p.bytes.toByteArray

/-- Whether the path starts with a separator, which is told by its first byte. -/
def isAbsolute (p : BytePath) : Bool := Path.isAbsolute p.spelling

/-- The path `q` seen from the directory `p`. -/
def join (p q : BytePath) : BytePath := ofSpelling (Path.join p.spelling q.spelling)

def clean (p : BytePath) : BytePath := ofSpelling (Path.clean p.spelling)

end BytePath

end Bundler
