import Bundler.Text.Utf8
/-!
# Files

What can be asked of files, whatever holds them, and how a question can fail.
-/
namespace Bundler

inductive FileError where
  | notFound (path : String)
  | io (path : String) (detail : String)
  | aborted (detail : String)
  deriving DecidableEq, Repr

def FileError.message : FileError → String
  | notFound path => s!"file not found: {path}"
  | io path detail => s!"I/O error on {path}: {detail}"
  | aborted detail => s!"blocking task failed: {detail}"

/-- What is known of a path: whether it is a file, and the size of its content. -/
structure FileInfo where
  size : Nat
  isFile : Bool
  deriving DecidableEq, Repr

structure FileView where
  read : String → Except FileError ByteArray
  info : String → Except FileError FileInfo

/-- The content of a file as text, which is refused unless it is UTF-8. -/
def FileView.readText (v : FileView) (path : String) : Except FileError String := do
  let bytes ← v.read path
  (Text.ofUtf8 bytes).mapError fun f => .io path f.message

end Bundler
