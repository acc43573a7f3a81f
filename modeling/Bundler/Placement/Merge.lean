import Bundler.Placement.Queries
/-!
# Merging two chunks

When two chunks may become one, and what the one is. Merging moves everything that refers to the
second chunk over to the first and leaves the second empty and detached.
-/
namespace Bundler

namespace Placement

def hasEntry (p : Placement) (c : ChunkKey) : Except GraphError Bool := do
  return !(← p.require c).entryModules.isEmpty

/-- Whether two chunks may be merged: neither is pinned, and either just one carries a runtime and
is there whenever the other is loaded, or both or none do and neither has an entry module. -/
def canMerge (p : Placement) (gs : Groups) (a b : Chunk) : Except GraphError Bool := do
  if a.pinned || b.pinned then return false
  match a.hasRuntime gs, b.hasRuntime gs with
  | true, false => return gs.isAvailable a b
  | false, true => return gs.isAvailable b a
  | _, _ =>
    if ← p.hasEntry a.key then return false
    return !(← p.hasEntry b.key)

/-- The name of a merged chunk. Of two names, the one of the only side with an entry module wins,
else the one with fewer bytes, else the smaller one. -/
def mergedName (entryA entryB : Bool) : Option String → Option String → Option String
  | none, none => none
  | some a, none => some a
  | none, some b => some b
  | some a, some b => some <|
    if entryA = entryB then
      if a.utf8ByteSize ≠ b.utf8ByteSize then
        if a.utf8ByteSize < b.utf8ByteSize then a else b
      else if a < b then a else b
    else if entryB then b
    else a

def moveModules (p : Placement) (a b : ChunkKey) (ms : List ModuleId) :
    Except GraphError Placement :=
  ms.foldlM (fun p m => do (← p.disconnect b m).connect a m) p

/-- Moves entry modules from `b` to `a` with the entrypoints that they start. -/
def moveEntries (p : Placement) (a b : ChunkKey) (es : List (ModuleId × GroupKey)) :
    Except GraphError Placement :=
  es.foldlM (fun p e => do (← p.disconnectEntry b e.1).connectEntry a e.1 e.2) p

end Placement

/-- What a merge works on: the surviving chunk, the absorbed one, and all that refers to them. -/
structure MergeState where
  target : Chunk
  source : Chunk
  placement : Placement
  groups : Groups

namespace MergeState

/-- Joins name, hints and runtimes in the target. The source keeps its runtimes. -/
def joinLabels (s : MergeState) (entryA entryB : Bool) : MergeState :=
  { s with
    target := { s.target with
      name := Placement.mergedName entryA entryB s.target.name s.source.name
      hints := s.target.hints.union s.source.hints
      runtime := s.target.runtime.union s.source.runtime }
    source := { s.source with name := none, hints := ∅ } }

/-- Puts the target where the source stands in one group; fails if the group is not stored. -/
def moveGroup (s : MergeState) (g : GroupKey) : MergeState × Except GraphError Unit :=
  match s.groups.get? g with
  | none => (s, .error (.groupNotFound g))
  | some group =>
    ({ s with
        target := s.target.addGroup g
        source := s.source.removeGroup g
        groups := s.groups.insert g (group.replace s.source.key s.target.key).1 }, .ok ())

/-- Moves the target into groups one after another, up to the first that is not stored. -/
def moveGroups (s : MergeState) : List GroupKey → MergeState × Except GraphError Unit
  | [] => (s, .ok ())
  | g :: gs =>
    match s.moveGroup g with
    | (s, .ok ()) => s.moveGroups gs
    | (s, .error e) => (s, .error e)

/-- Moves all modules and entry modules of the source. Its runtime modules stay behind. -/
def moveModules (s : MergeState) : Except GraphError MergeState := do
  let r ← s.placement.require s.source.key
  let p ← s.placement.moveModules s.target.key s.source.key r.modules.toList
  let p ← p.moveEntries s.target.key s.source.key r.entryModules.toList
  return { s with placement := p }

/-- Merges the source into the target. A failure leaves what was changed before it. -/
def run (s : MergeState) : MergeState × Except GraphError Unit :=
  let entries := do
    let a ← s.placement.hasEntry s.target.key
    let b ← s.placement.hasEntry s.source.key
    return (a, b)
  match entries with
  | .error e => (s, .error e)
  | .ok (a, b) =>
    let s := s.joinLabels a b
    match s.moveModules with
    | .error e => (s, .error e)
    | .ok s =>
      match s.moveGroups s.source.groups.toList with
      | (s, .error e) => (s, .error e)
      | (s, .ok ()) =>
        ({ s with placement := s.placement.removeChunk s.source.key }, .ok ())

end MergeState

end Bundler
