/-!
# Paths

Slash-separated paths as texts. Joining replaces on an absolute right side and adds a separator
otherwise; cleaning is lexical: empty and `.` parts go, `..` takes back the part before it, stays
in front of a relative path and vanishes at the root. No function here looks at a disk.
-/
namespace Bundler.Path

/-- What stands between the separators. An empty path is one empty part. -/
def parts (p : String) : List String := (p.toList.splitOn '/').map String.ofList

def isAbsolute (p : String) : Bool := p.toList.head? = some '/'

/-- The path `q` seen from the directory `p`. -/
def join (p q : String) : String :=
  if isAbsolute q then q
  else if p.isEmpty || p.toList.getLast? = some '/' then p ++ q
  else p ++ "/" ++ q

/-- One step of cleaning: the parts kept so far, last first, and the next part. -/
def cleanStep (rooted : Bool) (kept : List String) (part : String) : List String :=
  if part = "" ∨ part = "." then kept
  else if part = ".." then
    match kept with
    | [] => if rooted then [] else [".."]
    | last :: rest => if last = ".." then ".." :: kept else rest
  else part :: kept

/-- The parts that are left after cleaning, without separators. -/
def cleanParts (p : String) : List String :=
  ((parts p).foldl (cleanStep (isAbsolute p)) []).reverse

/-- The cleaned path. One of which nothing is left is `.`, or `/` if it is absolute. -/
def clean (p : String) : String :=
  if isAbsolute p then "/" ++ "/".intercalate (cleanParts p)
  else if cleanParts p = [] then "."
  else "/".intercalate (cleanParts p)

inductive Component where
  | root
  | here
  | up
  | name (s : String)
  deriving DecidableEq, Repr

/-- The parts a path consists of: repeated separators and inner or final `.` parts do not count,
a leading `.` does. -/
def components (p : String) : List Component :=
  let named := (parts p).filterMap fun s =>
    if s = "" ∨ s = "." then none else if s = ".." then some .up else some (.name s)
  if isAbsolute p then .root :: named
  else if (parts p).head? = some "." then .here :: named
  else named

def Component.rank : Component → Nat
  | .root => 0
  | .here => 1
  | .up => 2
  | .name _ => 3

/-- The order of components: the root, a leading `.`, `..`, then names by their text. -/
def Component.compare : Component → Component → Ordering
  | .name a, .name b => Ord.compare a b
  | a, b => Ord.compare a.rank b.rank

/-- The order of sequences of components, where a proper beginning comes first. -/
def compareComponents : List Component → List Component → Ordering
  | [], [] => .eq
  | [], _ :: _ => .lt
  | _ :: _, [] => .gt
  | a :: as, b :: bs => (a.compare b).then (compareComponents as bs)

/-- The order of paths by their components, in which `a/b` comes before `a.b`. -/
def compare (p q : String) : Ordering := compareComponents (components p) (components q)

/-- The last component, unless that is no name. -/
def fileName (p : String) : Option String :=
  match (components p).getLast? with
  | some (.name s) => some s
  | _ => none

def isIdle (part : String) : Bool := part = "" || part = "."

/-- The path without its last component, otherwise as it is written; the root and the empty path
have none. -/
def parent (p : String) : Option String :=
  let rooted := isAbsolute p
  let here := !rooted && (parts p).head? == some "."
  let front := if rooted then "/" else if here then "." else ""
  let body := if rooted || here then (parts p).drop 1 else parts p
  match body.reverse.dropWhile isIdle with
  | [] => if here then some "" else none
  | _ :: rest =>
    match (rest.dropWhile isIdle).reverse with
    | [] => some front
    | kept => some ((if here then "./" else front) ++ "/".intercalate kept)

/-- What follows the last dot of the file name, unless that dot begins the name. -/
def extension (p : String) : Option String :=
  match fileName p with
  | none => none
  | some name =>
    let back := name.toList.reverse
    let ext := back.takeWhile (· ≠ '.')
    match back.drop (ext.length + 1) with
    | [] => none
    | _ => some (String.ofList ext.reverse)

end Bundler.Path
