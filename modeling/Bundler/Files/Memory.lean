import Bundler.Files.Basic
import Bundler.Ordered.Map
import Bundler.Text.Path
/-!
# Files in memory

Files by their cleaned absolute path. All spellings of a path that clean to the same one mean the
same file; relative ones are seen from the working directory.
-/
namespace Bundler

/-- Files by cleaned absolute path. -/
structure MemoryFiles where
  cwd : String
  files : OrderedMap String ByteArray := ∅

namespace MemoryFiles

/-- The cleaned absolute path that a path means. -/
def locate (m : MemoryFiles) (path : String) : String :=
  if Path.isAbsolute path then Path.clean path else Path.clean (Path.join m.cwd path)

/-- Writes a file, in place of one that is there. Nothing can be in its way. -/
def write (m : MemoryFiles) (path : String) (content : ByteArray) : MemoryFiles :=
  { m with files := m.files.insert (m.locate path) content }

def contains (m : MemoryFiles) (path : String) : Bool := m.files.contains (m.locate path)

/-- All paths, sorted part by part and not letter by letter. -/
def paths (m : MemoryFiles) : List String :=
  m.files.keys.mergeSort fun p q => Path.compare p q != .gt

/-- The content of a file. A missing one is told by its cleaned absolute path. -/
def read (m : MemoryFiles) (path : String) : Except FileError ByteArray :=
  match m.files.get? (m.locate path) with
  | some content => .ok content
  | none => .error (.notFound (m.locate path))

/-- What is known of a file. There are no directories in memory. -/
def info (m : MemoryFiles) (path : String) : Except FileError FileInfo := do
  return ⟨(← m.read path).size, true⟩

def view (m : MemoryFiles) : FileView := ⟨m.read, m.info⟩

end MemoryFiles

end Bundler
