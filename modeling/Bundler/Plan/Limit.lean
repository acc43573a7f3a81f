import Bundler.Merge.Candidate
import Bundler.Plan.Basic
/-!
# Limiting the number of chunks

One pass merges pairs of chunks until few enough remain or no candidate is left. Every pair that
may be merged is a candidate, and the best ranked one is taken first. A merge drops the other
candidates of the surviving chunk and hands those of the absorbed chunk over to the survivor, with
sizes counted anew. A pair below a chunk that was changed before is passed over at the cost of one
merge.

The loop ends because each round takes an item out of the candidate queue and puts none in that
was not there.
-/
namespace Bundler

/-- How far to merge: the number of chunks allowed and the size model that ranks candidates. -/
structure ChunkLimit where
  maxChunks : Nat
  model : SizeModel := {}
  positive : 1 ≤ maxChunks := by decide

structure Limiting where
  plan : Plan
  candidates : Candidates := {}
  queue : CandidateQueue := .empty
  byChunk : OrderedMap ChunkKey (OrderedSet Nat) := ∅
  /-- Survivors of merges and members of pairs that were passed over. -/
  modified : OrderedSet ChunkKey := ∅
  /-- How many merges are still wanted. -/
  budget : Nat
  changed : Bool := false

namespace Limiting

def enlist (byChunk : OrderedMap ChunkKey (OrderedSet Nat)) (c : ChunkKey) (n : Nat) :
    OrderedMap ChunkKey (OrderedSet Nat) :=
  byChunk.insert c (((byChunk.get? c).getD ∅).insert n)

/-- Makes a pair of chunks a candidate if they may be merged. -/
def consider (model : SizeModel) (s : Limiting)
    (pair : (Chunk × CandidateSide) × Chunk × CandidateSide) : Except GraphError Limiting := do
  let ((chunkA, a), (chunkB, b)) := pair
  let p := s.plan
  if !(← p.placement.canMerge p.groups chunkA chunkB) then return s
  let size ← p.placement.mergedSize p.modules p.groups model chunkA chunkB
  let n := s.candidates.size
  return { s with
    candidates := s.candidates.push (.ofSides a b size)
    byChunk := enlist (enlist s.byChunk a.chunk n) b.chunk n }

/-- The pairs of a list, by their later and then by their earlier member. -/
def pairs {α : Type u} (xs : List α) : List (α × α) :=
  xs.zipIdx.flatMap fun (b, j) => (xs.take j).map (·, b)

/-- The chunks in chunk order, each with its place and its size before any merge. -/
def sides (model : SizeModel) (p : Plan) : Except GraphError (List (Chunk × CandidateSide)) := do
  let ordered ← p.placement.sortChunks p.chunks.keys
  ordered.zipIdx.mapM fun (k, i) => do
    let c ← p.chunks.require k
    return (c, ⟨k, i, ← p.placement.chunkSize p.modules p.groups model c⟩)

/-- A pass before its first round. All candidates wait in the queue under their numbers. -/
def start (model : SizeModel) (budget : Nat) (p : Plan) : Except GraphError Limiting := do
  let s ← (pairs (← sides model p)).foldlM (consider model) { plan := p, budget }
  return { s with queue := .ofList (List.range s.candidates.size) }

/-- Whether a chunk that was changed before, other than the two, belongs to a group in or above
the groups of the two. -/
def isBlocked (s : Limiting) (a b : Chunk) : Bool :=
  let others := (s.modified.toList.filter fun k => k ≠ a.key ∧ k ≠ b.key).filterMap
    s.plan.chunks.get?
  (s.plan.groups.above [] (a.groups.toList ++ b.groups.toList)).any fun g =>
    others.any fun c => g ∈ c.groups

/-- Notes that a candidate is out of the race, whatever the queue holds. -/
def markGone (s : Limiting) (n : Nat) : Limiting :=
  { s with candidates := s.candidates.modify n fun c => { c with gone := true } }

/-- Takes a candidate out of the queue, unless it is out of the race already. -/
def drop (s : Limiting) (n : Nat) : Limiting :=
  match s.candidates.get? n with
  | none => s
  | some c =>
    if c.gone then s
    else { s with queue := (s.queue.delete s.candidates.keys n).1 }.markGone n

def dropAll (s : Limiting) (k : ChunkKey) : Limiting :=
  let stale := ((s.byChunk.get? k).getD ∅).toList
  stale.foldl drop { s with byChunk := s.byChunk.erase k }

/-- The candidate after the absorbed chunk's side has become the survivor's, of size `size`. -/
def Candidate.retarget (c : Candidate) (wasFirst : Bool) (survivor : ChunkKey) (size merged : Nat) :
    Candidate :=
  if wasFirst then
    { c with
      a := { c.a with chunk := survivor, size }
      mergedSize := merged
      saving := sizeDiff c.b.size size merged }
  else
    { c with
      b := { c.b with chunk := survivor, size }
      mergedSize := merged
      saving := sizeDiff c.a.size size merged }

/-- Hands a candidate of the absorbed chunk `b` over to the survivor `a`, which has size `size`,
or drops it if the two may not be merged. -/
def handOver (model : SizeModel) (a b : ChunkKey) (size : Nat) (s : Limiting) (n : Nat) :
    Except GraphError Limiting :=
  match s.candidates.get? n with
  | none => .ok s
  | some c =>
    if c.gone then .ok s
    else do
      let p := s.plan
      let wasFirst := c.a.chunk = b
      let other := if wasFirst then c.b.chunk else c.a.chunk
      let survivor ← p.chunks.require a
      let other ← p.chunks.require other
      let (first, second) := if wasFirst then (survivor, other) else (other, survivor)
      if !(← p.placement.canMerge p.groups first second) then return s.drop n
      let merged ← p.placement.mergedSize p.modules p.groups model first second
      let update := s.queue.startUpdate s.candidates.keys n
      let candidates := s.candidates.modify n (Candidate.retarget · wasFirst a size merged)
      return { s with candidates, queue := s.queue.finishUpdate update }

/-- Hands the candidates of `b` over to `a`, up to the first failure. -/
def handOverAll (model : SizeModel) (a b : ChunkKey) (size : Nat) (s : Limiting) :
    Except GraphError Limiting := do
  let handed := (s.byChunk.get? b).getD ∅
  let s ← handed.toList.foldlM (handOver model a b size) { s with byChunk := s.byChunk.erase b }
  return { s with byChunk := s.byChunk.insert a handed }

/-- What comes of a round: a state to go on from, or the last state with its result. -/
inductive Round where
  | next (s : Limiting)
  | stop (s : Limiting) (r : Except GraphError Unit)

/-- Passes a pair over at the cost of one merge. -/
def passOver (s : Limiting) (a b : ChunkKey) : Round :=
  if s.budget - 1 = 0 then .stop { s with budget := s.budget - 1 } (.ok ())
  else .next { s with budget := s.budget - 1, modified := (s.modified.insert a).insert b }

/-- Brings the candidates up to date after a merge of `b` into `a`. -/
def refresh (model : SizeModel) (s : Limiting) (a b : ChunkKey) (size : Nat) : Round :=
  match (s.dropAll a).handOverAll model a b size with
  | .error e => .stop s (.error e)
  | .ok s => .next s

/-- Merges `b` into `a`, which now has size `size`, and goes on unless that was the last merge
wanted. -/
def mergePair (model : SizeModel) (s : Limiting) (a b : ChunkKey) (size : Nat) : Round :=
  match s.plan.merge a b with
  | (plan, .error e) => .stop { s with plan } (.error e)
  | (plan, .ok ()) =>
    let t := { s with
      plan, modified := s.modified.insert a, changed := true, budget := s.budget - 1 }
    if t.budget = 0 then .stop t (.ok ()) else t.refresh model a b size

/-- Passes a pair over, lets it go because it may no longer be merged, or merges it. -/
def settle (model : SizeModel) (s : Limiting) (c : Candidate) (chunkA chunkB : Chunk) : Round :=
  if s.isBlocked chunkA chunkB then s.passOver c.a.chunk c.b.chunk
  else match s.plan.placement.canMerge s.plan.groups chunkA chunkB with
    | .error e => .stop s (.error e)
    | .ok false => .next s
    | .ok true => s.mergePair model c.a.chunk c.b.chunk c.mergedSize

/-- One round: the candidate `n`, already out of the queue, is settled. -/
def round (model : SizeModel) (s : Limiting) (n : Nat) : Round :=
  match s.candidates.get? n with
  | none => .next s
  | some c =>
    match s.plan.chunks.require c.a.chunk, s.plan.chunks.require c.b.chunk with
    | .ok chunkA, .ok chunkB => (s.markGone n).settle model c chunkA chunkB
    | .error e, _ | .ok _, .error e => .stop (s.markGone n) (.error e)

theorem cells_drop_le (s : Limiting) (n : Nat) : (s.drop n).queue.cells ≤ s.queue.cells := by
  unfold drop
  split
  · exact Nat.le_refl _
  · split
    · exact Nat.le_refl _
    · exact BucketQueue.cells_delete_le _ _ _

theorem cells_dropAll_le (s : Limiting) (k : ChunkKey) :
    (s.dropAll k).queue.cells ≤ s.queue.cells := by
  unfold dropAll
  have h : ∀ (ns : List Nat) (s : Limiting), (ns.foldl drop s).queue.cells ≤ s.queue.cells := by
    intro ns
    induction ns with
    | nil => intro s; exact Nat.le_refl _
    | cons n ns ih => intro s; exact Nat.le_trans (ih _) (cells_drop_le s n)
  exact h _ _

theorem cells_handOver_le {model : SizeModel} {a b : ChunkKey} {size n : Nat} {s t : Limiting}
    (h : handOver model a b size s n = .ok t) : t.queue.cells ≤ s.queue.cells := by
  unfold handOver at h
  split at h
  · cases h; exact Nat.le_refl _
  · split at h
    · cases h; exact Nat.le_refl _
    · simp only [bind, Except.bind] at h
      repeat' split at h
      all_goals first
        | contradiction
        | (cases h; first | exact cells_drop_le _ _ | exact BucketQueue.cells_finishUpdate_le _ _)

theorem cells_foldlM_handOver_le {model : SizeModel} {a b : ChunkKey} {size : Nat}
    {ns : List Nat} {s t : Limiting} (h : ns.foldlM (handOver model a b size) s = .ok t) :
    t.queue.cells ≤ s.queue.cells := by
  induction ns generalizing s with
  | nil => cases h; exact Nat.le_refl _
  | cons n ns ih =>
    simp only [List.foldlM_cons, bind, Except.bind] at h
    split at h
    · contradiction
    · rename_i u hu
      exact Nat.le_trans (ih h) (cells_handOver_le hu)

theorem cells_handOverAll_le {model : SizeModel} {a b : ChunkKey} {size : Nat} {s t : Limiting}
    (h : handOverAll model a b size s = .ok t) : t.queue.cells ≤ s.queue.cells := by
  simp only [handOverAll, bind, Except.bind] at h
  split at h
  · contradiction
  · rename_i u hu
    cases h
    have hle := cells_foldlM_handOver_le hu
    exact hle

theorem cells_refresh_le {model : SizeModel} {s t : Limiting} {a b : ChunkKey} {size : Nat}
    (h : s.refresh model a b size = .next t) : t.queue.cells ≤ s.queue.cells := by
  unfold refresh at h
  split at h
  · contradiction
  · rename_i hr
    cases h
    exact Nat.le_trans (cells_handOverAll_le hr) (cells_dropAll_le _ _)

theorem cells_settle_le {model : SizeModel} {s t : Limiting} {c : Candidate}
    {chunkA chunkB : Chunk} (h : s.settle model c chunkA chunkB = .next t) :
    t.queue.cells ≤ s.queue.cells := by
  unfold settle at h
  split at h
  · unfold passOver at h
    split at h
    · contradiction
    · cases h; exact Nat.le_refl _
  · split at h
    · contradiction
    · cases h; exact Nat.le_refl _
    · unfold mergePair at h
      split at h
      · contradiction
      · dsimp only at h
        split at h
        · contradiction
        · have hle := cells_refresh_le h
          exact hle

theorem cells_round_le {model : SizeModel} {s t : Limiting} {n : Nat}
    (h : round model s n = .next t) : t.queue.cells ≤ s.queue.cells := by
  unfold round at h
  split at h
  · cases h; exact Nat.le_refl _
  · split at h
    · have hle := cells_settle_le h
      exact hle
    · contradiction
    · contradiction

/-- Rounds until one of them stops or no candidate is left. -/
def run (model : SizeModel) (s : Limiting) : Limiting × Except GraphError Unit :=
  match _h : s.queue.popFirst s.candidates.keys with
  | (none, queue) => ({ s with queue }, .ok ())
  | (some n, queue) =>
    match _hr : round model { s with queue } n with
    | .stop s r => (s, r)
    | .next t => run model t
termination_by s.queue.cells
decreasing_by exact Nat.lt_of_le_of_lt (cells_round_le _hr) (BucketQueue.cells_popFirst _h)

end Limiting

/-- One pass of merging over a plan; tells whether any chunk was merged. A failure leaves what was
changed before it. -/
def ChunkLimit.pass (l : ChunkLimit) (p : Plan) : Plan × Except GraphError Bool :=
  if p.chunkCount ≤ l.maxChunks then (p, .ok false)
  else match Limiting.start l.model (p.chunkCount - l.maxChunks) p with
    | .error e => (p, .error e)
    | .ok s =>
      match s.run l.model with
      | (s, .ok ()) => (s.plan, .ok s.changed)
      | (s, .error e) => (s.plan, .error e)

end Bundler
