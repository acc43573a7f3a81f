import Bundler.Build.Compilation
import Bundler.Command.Failure
import Bundler.Files.Disk
import Bundler.Files.Memory
/-!
# Writing assets

The assets of a build are written below the output directory, in the order in which they were
emitted, each into its own directory, which is made if it is missing. The first failure ends it;
what has been written before stays.
-/
namespace Bundler

/-- A place to write files to. Both calls give back what has become of it, also when they fail. -/
structure FileSink (σ : Type) where
  makeDirectories : σ → String → σ × Except FileError Unit
  write : σ → String → ByteArray → σ × Except FileError Unit

/-- Writing to memory never fails, and there are no directories to make. -/
def MemoryFiles.sink : FileSink MemoryFiles where
  makeDirectories m _ := (m, .ok ())
  write m path content := (m.write path content, .ok ())

/-- Writing to a disk, whose faults are told with the path. -/
def Disk.sink : FileSink Disk where
  makeDirectories d path :=
    let (d, r) := d.makeDirectories path
    (d, r.mapError (DiskFault.toFileError path))
  write d path content :=
    match d.write path content with
    | .ok d => (d, .ok ())
    | .error f => (d, .error (f.toFileError path))

namespace FileSink

variable {σ : Type}

/-- A step of writing whose failure is told with the path of an asset. -/
def step (path : String) (r : σ × Except FileError Unit) : σ × Except RunFailure Unit :=
  (r.1, r.2.mapError fun e => .assetWrite path e.message)

/-- Writes one asset, once the directory that it belongs into has been made. -/
def writeAsset (k : FileSink σ) (s : σ) (outDir name : String) (content : ByteArray) :
    σ × Except RunFailure Unit :=
  let path := Path.join outDir name
  let made := match Path.parent path with
    | some dir => step dir (k.makeDirectories s dir)
    | none => (s, .ok ())
  match made with
  | (s, .error e) => (s, .error e)
  | (s, .ok ()) => step path (k.write s path content)

def writeEach (k : FileSink σ) (s : σ) (outDir : String) :
    List (String × ByteArray) → σ × Except RunFailure Unit
  | [] => (s, .ok ())
  | (name, content) :: rest =>
    match k.writeAsset s outDir name content with
    | (s, .error e) => (s, .error e)
    | (s, .ok ()) => k.writeEach s outDir rest

/-- Writes all assets. The output directory is made even where there are none. -/
def writeAssets (k : FileSink σ) (s : σ) (outDir : String) (assets : OrderedMap String ByteArray) :
    σ × Except RunFailure Unit :=
  match step outDir (k.makeDirectories s outDir) with
  | (s, .error e) => (s, .error e)
  | (s, .ok ()) => k.writeEach s outDir assets.toList

end FileSink

end Bundler
