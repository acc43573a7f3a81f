import Bundler.Merge.BucketQueue
import Bundler.Keys
import Bundler.Size
/-!
# Candidate merges

A candidate is a pair of chunks that may be merged, with the sizes that rank it: the largest
saving comes first, then the smallest merged chunk, then the pair whose chunks stand closest
together in chunk order, then the pair that stands first.
-/
namespace Bundler

/-- What merging saves: the sizes of both sides less the size of the result, in signed 64-bit
numbers that stop at the ends of their range. -/
def sizeDiff (a b merged : Nat) : Int :=
  Size.capSigned (Size.capSigned (Size.signed a + Size.signed b) - Size.signed merged)

/-- One chunk of a pair, with its place in chunk order and its size. -/
structure CandidateSide where
  chunk : ChunkKey
  index : Nat
  size : Nat
  deriving DecidableEq, Repr

/-- A candidate merge of chunk `b` into chunk `a`. -/
structure Candidate where
  a : CandidateSide
  b : CandidateSide
  mergedSize : Nat
  saving : Int
  /-- Whether the candidate has been taken or dropped. -/
  gone : Bool := false
  deriving DecidableEq, Repr

namespace Candidate

/-- A candidate of two sides, whose saving follows from the sizes. -/
def ofSides (a b : CandidateSide) (mergedSize : Nat) : Candidate :=
  ⟨a, b, mergedSize, sizeDiff a.size b.size mergedSize, false⟩

/-- The layer keys: saving, merged size, distance. -/
def path (c : Candidate) : List Int :=
  [-c.saving, Size.signed c.mergedSize, Size.signed (c.b.index - c.a.index)]

/-- The key inside a leaf: the place of the later chunk. -/
def leaf (c : Candidate) : Int := Size.signed c.b.index

end Candidate

/-- All candidates of a pass. Each keeps its number, and none is taken out. -/
structure Candidates where
  toArray : Array Candidate := #[]

namespace Candidates

def get? (cs : Candidates) (n : Nat) : Option Candidate := cs.toArray[n]?

/-- The number that the next candidate gets. -/
def size (cs : Candidates) : Nat := cs.toArray.size

def push (cs : Candidates) (c : Candidate) : Candidates := ⟨cs.toArray.push c⟩

def modify (cs : Candidates) (n : Nat) (f : Candidate → Candidate) : Candidates :=
  ⟨cs.toArray.modify n f⟩

@[simp] theorem size_push (cs : Candidates) (c : Candidate) : (cs.push c).size = cs.size + 1 := by
  simp [push, size]

theorem get?_push (cs : Candidates) (c : Candidate) (n : Nat) :
    (cs.push c).get? n = if n = cs.size then some c else cs.get? n := by
  simp only [push, get?, size, Array.getElem?_push]
  rfl

@[simp] theorem size_modify (cs : Candidates) (n : Nat) (f : Candidate → Candidate) :
    (cs.modify n f).size = cs.size := by
  simp [modify, size]

theorem get?_modify (cs : Candidates) (n i : Nat) (f : Candidate → Candidate) :
    (cs.modify n f).get? i = if i = n then (cs.get? i).map f else cs.get? i := by
  simp only [modify, get?, Array.getElem?_modify]
  by_cases h : i = n
  · subst h; simp
  · simp [h, Ne.symm h]

/-- How many keys come before the one inside a leaf. -/
def layers : Nat := 3

/-- The keys by which candidates are ranked; one that is not stored has zeros only. -/
def keys (cs : Candidates) : SortKeys Nat where
  path n := (cs.get? n).elim [0, 0, 0] Candidate.path
  leaf n := (cs.get? n).elim 0 Candidate.leaf

end Candidates

/-- Numbers of candidates under three layers. Numbers decide between candidates with the same keys.
-/
abbrev CandidateQueue := BucketQueue Nat 2

end Bundler
