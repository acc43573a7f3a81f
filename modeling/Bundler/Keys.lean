/-!
# Keys of chunks and groups

Chunks and chunk groups refer to each other by keys. One supply hands out the numbers of both, in
increasing order, so that the order of keys is the order of creation.
-/
namespace Bundler

/-- Names a chunk while a build runs. Its id, which output is named by, is another matter. -/
structure ChunkKey where
  number : Nat
  deriving DecidableEq, Repr, Inhabited

/-- Names a chunk group. No chunk has its number, as both come from one supply. -/
structure GroupKey where
  number : Nat
  deriving DecidableEq, Repr, Inhabited

/-- The next number that has not been handed out. Numbers start at 1, so that 0 names nothing. -/
structure KeySupply where
  next : Nat := 1
  deriving DecidableEq, Repr, Inhabited

namespace KeySupply

/-- The number handed out next, and the supply after it. -/
def take (s : KeySupply) : Nat × KeySupply := (s.next, ⟨s.next + 1⟩)

def chunk (s : KeySupply) : ChunkKey × KeySupply := (⟨s.next⟩, ⟨s.next + 1⟩)

def group (s : KeySupply) : GroupKey × KeySupply := (⟨s.next⟩, ⟨s.next + 1⟩)

end KeySupply

/-- How keys are written in messages. -/
structure KeyNames where
  chunk : ChunkKey → String
  group : GroupKey → String

def KeyNames.numbers : KeyNames := ⟨fun k => toString k.number, fun k => toString k.number⟩

end Bundler
