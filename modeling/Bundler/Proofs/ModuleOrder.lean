import Bundler.Proofs.PassKeeps
import Bundler.Proofs.Reordered
/-!
# The order of modules does not show

Two passes over plans that differ in the order of modules go the same way. Their states differ in
the plan only, round after round, so that they take the same candidates, merge the same pairs in the
same order and end alike.
-/
namespace Bundler

namespace Plan

/-- The merges of the listed pairs, one after the other, lead from one plan to the other. -/
def MergesAlong : List (ChunkKey × ChunkKey) → Plan → Plan → Prop
  | [], p, q => p = q
  | e :: es, p, q => ∃ t, p.merge e.1 e.2 = (t, .ok ()) ∧ MergesAlong es t q

theorem MergesAlong.append {es fs : List (ChunkKey × ChunkKey)} {p q r : Plan}
    (h : MergesAlong es p q) (h' : MergesAlong fs q r) : MergesAlong (es ++ fs) p r := by
  induction es generalizing p with
  | nil =>
    have hpq : p = q := h
    exact hpq ▸ h'
  | cons e es ih =>
    obtain ⟨t, ht, hrest⟩ := h
    exact ⟨t, ht, ih hrest⟩

end Plan

namespace Limiting

/-- The pair of candidate `n`, if there are fewer chunks after the round that settles it. -/
def settledPair (s : Limiting) (n : Nat) (t : Limiting) : List (ChunkKey × ChunkKey) :=
  if t.plan.chunkCount < s.plan.chunkCount then
    (s.candidates.get? n).toList.map fun c => (c.a.chunk, c.b.chunk)
  else []

/-- The pairs that a run merges, in order, each with the survivor first. -/
def mergedPairs (model : SizeModel) (s : Limiting) : List (ChunkKey × ChunkKey) :=
  match _h : s.queue.popFirst s.candidates.keys with
  | (none, _) => []
  | (some n, queue) =>
    match _hr : round model { s with queue } n with
    | .stop t _ => s.settledPair n t
    | .next t => s.settledPair n t ++ mergedPairs model t
termination_by s.queue.cells
decreasing_by exact Nat.lt_of_le_of_lt (cells_round_le _hr) (BucketQueue.cells_popFirst _h)

end Limiting

/-- The pairs that a pass merges, in order, each with the survivor first. -/
def ChunkLimit.mergedPairs (l : ChunkLimit) (p : Plan) : List (ChunkKey × ChunkKey) :=
  if p.chunkCount ≤ l.maxChunks then []
  else match Limiting.start l.model (p.chunkCount - l.maxChunks) p with
    | .error _ => []
    | .ok s => s.mergedPairs l.model

namespace Limiting
variable {model : SizeModel} {s t : Limiting} {q : Plan} {a b : ChunkKey} {size n : Nat}

theorem Settled.mergesAlong {c : Candidate} (h : Settled s c t)
    (hc : s.candidates.get? n = some c) : Plan.MergesAlong (s.settledPair n t) s.plan t.plan := by
  unfold settledPair
  cases h with
  | kept hplan _ _ _ =>
    rw [hplan, if_neg (Nat.lt_irrefl _)]
    rfl
  | merged hstep hmade _ _ =>
    have hcount := hstep.chunkCount
    rw [if_pos (by omega), hc]
    exact ⟨t.plan, hmade, rfl⟩

section Equations
variable {queue : CandidateQueue} {r : Except GraphError Unit}

theorem run_none (model : SizeModel)
    (hpop : s.queue.popFirst s.candidates.keys = (none, queue)) :
    s.run model = ({ s with queue }, .ok ()) ∧ s.mergedPairs model = [] := by
  constructor
  · rw [run]
    grind
  · rw [mergedPairs]
    grind

theorem run_stop (hpop : s.queue.popFirst s.candidates.keys = (some n, queue))
    (hround : round model { s with queue } n = .stop t r) :
    s.run model = (t, r) ∧ s.mergedPairs model = s.settledPair n t := by
  constructor
  · rw [run]
    grind
  · rw [mergedPairs]
    grind

theorem run_next (hpop : s.queue.popFirst s.candidates.keys = (some n, queue))
    (hround : round model { s with queue } n = .next t) :
    s.run model = t.run model ∧ s.mergedPairs model = s.settledPair n t ++ t.mergedPairs model := by
  constructor
  · rw [run]
    grind
  · rw [mergedPairs]
    grind

end Equations

/-- The state with another plan in the place of its own. -/
def withPlan (s : Limiting) (q : Plan) : Limiting := { s with plan := q }

def Round.withPlan : Round → Plan → Round
  | .next s, q => .next (s.withPlan q)
  | .stop s r, q => .stop (s.withPlan q) r

theorem drop_withPlan (s : Limiting) (q : Plan) (n : Nat) :
    (s.withPlan q).drop n = (s.drop n).withPlan q := by
  unfold drop withPlan
  dsimp only
  split
  · rfl
  · split
    · rfl
    · rfl

theorem foldl_drop_withPlan (ns : List Nat) (s : Limiting) (q : Plan) :
    ns.foldl drop (s.withPlan q) = (ns.foldl drop s).withPlan q := by
  induction ns generalizing s with
  | nil => rfl
  | cons n ns ih => rw [List.foldl_cons, List.foldl_cons, drop_withPlan, ih]

theorem dropAll_withPlan (s : Limiting) (q : Plan) (k : ChunkKey) :
    (s.withPlan q).dropAll k = (s.dropAll k).withPlan q :=
  foldl_drop_withPlan _ { s with byChunk := s.byChunk.erase k } q

theorem handOver_withPlan (h : s.plan.Reordered q) (model : SizeModel) (a b : ChunkKey)
    (size n : Nat) : handOver model a b size (s.withPlan q) n =
      (handOver model a b size s n).map (·.withPlan q) := by
  have hdrop := drop_withPlan s q n
  unfold withPlan at hdrop
  unfold handOver withPlan
  dsimp only
  cases s.candidates.get? n with
  | none => rfl
  | some c =>
    dsimp only
    split
    · rfl
    · simp only [← h.chunks, ← h.canMerge, ← h.mergedSize, hdrop]
      rw [map_bind]
      refine bind_congr fun survivor => ?_
      rw [map_bind]
      refine bind_congr fun other => ?_
      rw [map_bind]
      refine bind_congr fun may => ?_
      cases may with
      | false => rfl
      | true =>
        simp only [Bool.not_true, Bool.false_eq_true, ↓reduceIte, map_bind]
        rfl

/-- A fold goes the same way over both plans if each of its steps does. -/
theorem foldlM_withPlan {α : Type} {f : Limiting → α → Except GraphError Limiting}
    (hf : ∀ {s q} x, s.plan.Reordered q → f (s.withPlan q) x = (f s x).map (·.withPlan q))
    (h : s.plan.Reordered q) (xs : List α) :
    xs.foldlM f (s.withPlan q) = (xs.foldlM f s).map (·.withPlan q) := by
  induction xs generalizing s with
  | nil => rfl
  | cons x xs ih =>
    rw [List.foldlM_cons, List.foldlM_cons, hf x h]
    cases ht : f s x with
    | error e => rfl
    | ok t =>
      have hsame := hf x (.refl s.plan)
      rw [show s.withPlan s.plan = s from rfl, ht] at hsame
      have hplan := congrArg Limiting.plan (Except.ok.inj hsame)
      exact ih (show t.plan.Reordered q from (show t.plan = s.plan from hplan) ▸ h)

theorem handOverAll_withPlan (h : s.plan.Reordered q) :
    handOverAll model a b size (s.withPlan q) =
      (handOverAll model a b size s).map (·.withPlan q) := by
  have hfold := foldlM_withPlan (s := { s with byChunk := s.byChunk.erase b })
    (fun n hn => handOver_withPlan hn model a b size n) h ((s.byChunk.get? b).getD ∅).toList
  unfold handOverAll
  rw [map_bind]
  show (List.foldlM _ ({ s with byChunk := s.byChunk.erase b }.withPlan q) _ >>= _) = _
  rw [show (s.withPlan q).byChunk = s.byChunk from rfl, hfold]
  cases ((s.byChunk.get? b).getD ∅).toList.foldlM (handOver model a b size)
    { s with byChunk := s.byChunk.erase b } with
  | error e => rfl
  | ok t => rfl

theorem refresh_withPlan (h : s.plan.Reordered q) :
    (s.withPlan q).refresh model a b size = (s.refresh model a b size).withPlan q := by
  unfold refresh
  rw [dropAll_withPlan, handOverAll_withPlan (plan_dropAll s a ▸ h)]
  cases (s.dropAll a).handOverAll model a b size with
  | error e => rfl
  | ok t => rfl

theorem isBlocked_withPlan (h : s.plan.Reordered q) (A B : Chunk) :
    (s.withPlan q).isBlocked A B = s.isBlocked A B := by
  unfold isBlocked withPlan
  simp only [← h.chunks, ← h.groups]

/-- Settling a candidate over a plan with another order of modules comes to the same. -/
theorem settle_withPlan (model : SizeModel) (h : s.plan.Reordered q) (hp : s.plan.Consistent)
    {c : Candidate} (hne : c.a.chunk ≠ c.b.chunk) {A B : Chunk}
    (hA : s.plan.chunks.get? c.a.chunk = some A) (hB : s.plan.chunks.get? c.b.chunk = some B) :
    ∃ q', (s.withPlan q).settle model c A B = (s.settle model c A B).withPlan q' ∧
      (s.settle model c A B).state.plan.Reordered q' := by
  unfold settle
  rw [isBlocked_withPlan h]
  split
  · refine ⟨q, ?_, ?_⟩
    · unfold passOver withPlan
      dsimp only
      split
      · rfl
      · rfl
    · unfold passOver
      split
      · exact h
      · exact h
  · rw [show (s.withPlan q).plan = q from rfl, ← h.canMerge]
    cases s.plan.placement.canMerge s.plan.groups A B with
    | error e => exact ⟨q, rfl, h⟩
    | ok may =>
      cases may with
      | false => exact ⟨q, rfl, h⟩
      | true =>
        obtain ⟨p', q', hmerge, hmerge', h'⟩ := h.merge hp hne hA hB
        refine ⟨q', ?_, ?_⟩
        · simp only [mergePair, show (s.withPlan q).plan = q from rfl, hmerge, hmerge']
          show (if s.budget - 1 = 0 then _ else _) =
            (if s.budget - 1 = 0 then _ else _ : Round).withPlan q'
          split
          · rfl
          · exact refresh_withPlan (s := { s with
              plan := p', modified := s.modified.insert c.a.chunk, changed := true,
              budget := s.budget - 1 }) h'
        · simp only [mergePair, hmerge]
          split
          · exact h'
          · rw [plan_refresh]
            exact h'

theorem round_withPlan (h : s.plan.Reordered q) (hinv : Inv model s) {queue : CandidateQueue}
    (hpop : s.queue.popFirst s.candidates.keys = (some n, queue)) :
    ∃ q', round model { s.withPlan q with queue } n = (round model { s with queue } n).withPlan q' ∧
      (round model { s with queue } n).state.plan.Reordered q' := by
  obtain ⟨c, hc, hlive, -, -⟩ := hinv.take hpop
  have hrated := hinv.rated hc hlive
  obtain ⟨A, hA⟩ := Plan.stored_of_sizeOf hrated.sizeA
  obtain ⟨B, hB⟩ := Plan.stored_of_sizeOf hrated.sizeB
  obtain ⟨q', hwith, h'⟩ := settle_withPlan (s := { s with queue }.markGone n) model h hinv.plan
    hrated.ne hA hB
  have hround : round model { s with queue } n =
      ({ s with queue }.markGone n).settle model c A B := by
    simp only [round, hc, Chunks.require_eq_ok.mpr hA, Chunks.require_eq_ok.mpr hB]
  have hround' : round model { s.withPlan q with queue } n =
      (({ s with queue }.markGone n).withPlan q).settle model c A B := by
    rw [h.chunks] at hA hB
    simp only [round, withPlan, hc, Chunks.require_eq_ok.mpr hA, Chunks.require_eq_ok.mpr hB]
    rfl
  refine ⟨q', ?_, ?_⟩
  · rw [hround, hround', hwith]
  · rw [hround]
    exact h'

theorem settledPair_withPlan (h : s.plan.Reordered q) {q' : Plan} (h' : t.plan.Reordered q') :
    (s.withPlan q).settledPair n (t.withPlan q') = s.settledPair n t := by
  unfold settledPair withPlan Plan.chunkCount
  rw [h.chunks, h'.chunks]

/-- A run over a plan with another order of modules merges the same pairs and ends alike. -/
theorem run_withPlan (h : s.plan.Reordered q) (hinv : Inv model s) :
    ∃ q', (s.withPlan q).run model = ((s.run model).1.withPlan q', (s.run model).2) ∧
      (s.run model).1.plan.Reordered q' ∧
      (s.withPlan q).mergedPairs model = s.mergedPairs model := by
  fun_induction run model s generalizing q with
  | case1 s queue hpop =>
    obtain ⟨hrun, hpairs⟩ := run_none (s := s.withPlan q) model hpop
    exact ⟨q, hrun, h, hpairs.trans (run_none model hpop).2.symm⟩
  | case2 s n queue hpop t r hround =>
    obtain ⟨q', hwith, h'⟩ := round_withPlan h hinv hpop
    rw [hround] at hwith h'
    obtain ⟨hrun, hpairs⟩ := run_stop (s := s.withPlan q) hpop hwith
    refine ⟨q', hrun, h', ?_⟩
    rw [hpairs, (run_stop hpop hround).2, settledPair_withPlan (t := t) h h']
  | case3 s n queue hpop t hround ih =>
    obtain ⟨q', hwith, h'⟩ := round_withPlan h hinv hpop
    rw [hround] at hwith h'
    obtain ⟨hrun, hpairs⟩ := run_next (s := s.withPlan q) hpop hwith
    obtain ⟨c, u, -, -, -, hstop | ⟨hnext, hinv', -⟩⟩ := round_ok hinv hpop
    · rw [hround] at hstop
      cases hstop
    · rw [hround] at hnext
      cases hnext
      obtain ⟨q'', hrest, h'', hpairs'⟩ := ih h' hinv'
      refine ⟨q'', hrun.trans hrest, h'', ?_⟩
      rw [hpairs, (run_next hpop hround).2, settledPair_withPlan (t := t) h h', hpairs']

/-- The pairs that are listed are the merges that a run makes. -/
theorem Inv.mergesAlong (h : Inv model s) :
    Plan.MergesAlong (s.mergedPairs model) s.plan (s.run model).1.plan := by
  fun_induction run model s with
  | case1 s queue hpop =>
    rw [(run_none model hpop).2]
    rfl
  | case2 s n queue hpop t r hround =>
    obtain ⟨c, u, hc, -, hu, hstop | ⟨hnext, -⟩⟩ := round_ok h hpop
    · rw [hround] at hstop
      cases hstop
      rw [(run_stop hpop hround).2]
      exact hu.mergesAlong hc
    · rw [hround] at hnext
      cases hnext
  | case3 s n queue hpop t hround ih =>
    obtain ⟨c, u, hc, -, hu, hstop | ⟨hnext, hinv, -⟩⟩ := round_ok h hpop
    · rw [hround] at hstop
      cases hstop
    · rw [hround] at hnext
      cases hnext
      rw [(run_next hpop hround).2]
      exact (hu.mergesAlong hc).append (ih hinv)

section Start
variable {p : Plan} (h : p.Reordered q)
include h

theorem sides_reordered (model : SizeModel) : sides model q = sides model p := by
  unfold sides
  rw [← h.chunks, ← h.sortChunks]
  simp only [← h.chunkSize]

omit h in
theorem consider_withPlan (h : s.plan.Reordered q)
    (pair : (Chunk × CandidateSide) × Chunk × CandidateSide) :
    consider model (s.withPlan q) pair = (consider model s pair).map (·.withPlan q) := by
  unfold consider withPlan
  simp only [← h.canMerge, ← h.mergedSize]
  rw [map_bind]
  refine bind_congr fun may => ?_
  cases may with
  | false => rfl
  | true =>
    simp only [Bool.not_true, Bool.false_eq_true, ↓reduceIte, map_bind]
    rfl

theorem start_withPlan (model : SizeModel) (budget : Nat) :
    start model budget q = (start model budget p).map (·.withPlan q) := by
  unfold start
  rw [sides_reordered h, map_bind]
  refine bind_congr fun xs => ?_
  have hfold := foldlM_withPlan (s := { plan := p, budget })
    (fun pair hs => consider_withPlan hs pair) h (pairs xs) (f := consider model)
  rw [map_bind]
  show (List.foldlM _ ({ plan := p, budget : Limiting }.withPlan q) _ >>= _) = _
  rw [hfold]
  cases (pairs xs).foldlM (consider model) { plan := p, budget } with
  | error e => rfl
  | ok t => rfl

end Start

end Limiting

theorem ChunkLimit.pass_of_run {l : ChunkLimit} {p : Plan} {s t : Limiting}
    (hmany : ¬ p.chunkCount ≤ l.maxChunks)
    (hstart : Limiting.start l.model (p.chunkCount - l.maxChunks) p = .ok s)
    (hrun : s.run l.model = (t, .ok ())) :
    l.pass p = (t.plan, .ok t.changed) ∧ l.mergedPairs p = s.mergedPairs l.model := by
  constructor
  · simp only [pass, if_neg hmany, hstart, hrun]
  · simp only [mergedPairs, if_neg hmany, hstart]

namespace Plan

/-- Passes over two plans that differ only in the order in which chunks keep their modules merge the
same pairs in the same order, answer the same, and leave plans that differ only in this order. -/
theorem Reached.pass_reordered {p q : Plan} (hp : p.Reached) (h : p.Reordered q) (l : ChunkLimit) :
    ∃ p' q' changed, l.pass p = (p', .ok changed) ∧ l.pass q = (q', .ok changed) ∧
      p'.Reordered q' ∧ l.mergedPairs q = l.mergedPairs p ∧
      MergesAlong (l.mergedPairs p) p p' ∧ MergesAlong (l.mergedPairs q) q q' := by
  have hcount : q.chunkCount = p.chunkCount := by rw [chunkCount, chunkCount, h.chunks]
  by_cases hfew : p.chunkCount ≤ l.maxChunks
  · have hfew' : q.chunkCount ≤ l.maxChunks := hcount ▸ hfew
    simp only [ChunkLimit.pass, ChunkLimit.mergedPairs, if_pos hfew, if_pos hfew']
    exact ⟨p, q, false, rfl, rfl, h, trivial, rfl, rfl⟩
  · have hq := h.consistent hp.consistent
    obtain ⟨ks, s, -, -, hstart, hs⟩ :=
      Limiting.start_ok hp.consistent l.model (p.chunkCount - l.maxChunks)
    obtain ⟨ks', s', -, -, hstart', hs'⟩ :=
      Limiting.start_ok hq l.model (p.chunkCount - l.maxChunks)
    have hwith := hstart'
    rw [Limiting.start_withPlan h, hstart] at hwith
    obtain rfl : s.withPlan q = s' := Except.ok.inj hwith
    have hinv := hs.inv hp.consistent (by omega)
    obtain ⟨t, hrun, -, -⟩ := hs.run_ok l.maxChunks hp.consistent (by omega) (by omega)
    obtain ⟨q', hrun', hreordered, hpairs⟩ := Limiting.run_withPlan (q := q) (hs.plan ▸ h) hinv
    have halong := hinv.mergesAlong
    have halong' := (hs'.inv hq (by omega)).mergesAlong
    simp only [hrun, hs.plan] at hrun' hreordered halong
    rw [hrun', hs'.plan] at halong'
    obtain ⟨hpass, hlist⟩ := ChunkLimit.pass_of_run hfew hstart hrun
    obtain ⟨hpass', hlist'⟩ := ChunkLimit.pass_of_run (hcount ▸ hfew) (hcount ▸ hstart') hrun'
    rw [hlist, hlist']
    exact ⟨t.plan, q', t.changed, hpass, hpass', hreordered, hpairs, halong, halong'⟩

/-- Three chunks of which the last holds the modules of a list, in the order of the list. -/
def listedChunk (ms : List ModuleId) : Plan :=
  (twoChunks.addAsyncChunk ⟨1⟩ none ms).1

theorem reordered_listedChunk :
    (listedChunk ["b.js", "B.js", "c.js"]).Reordered (listedChunk ["c.js", "B.js", "b.js"]) where
  sizes m := by
    have hmodules : (listedChunk ["b.js", "B.js", "c.js"]).modules =
      (listedChunk ["c.js", "B.js", "b.js"]).modules := by decide
    rw [hmodules]
  chunks := by decide
  groups := by decide
  entrypoints := by decide
  supply := by decide
  records k := by
    have hlast : ∀ ms ∈ [["b.js", "B.js", "c.js"], ["c.js", "B.js", "b.js"]],
        (listedChunk ms).placement.chunks.get? ⟨6⟩ = some { modules := .ofList ms } := by decide
    have hrest : (listedChunk ["b.js", "B.js", "c.js"]).placement.chunks.erase ⟨6⟩ =
        (listedChunk ["c.js", "B.js", "b.js"]).placement.chunks.erase ⟨6⟩ := by decide
    by_cases hk : k = ⟨6⟩
    · rw [hk, hlast _ (by simp), hlast _ (by simp)]
      refine .some ⟨fun m => ?_, rfl, rfl, rfl⟩
      rw [OrderedSet.mem_ofList, OrderedSet.mem_ofList]
      grind
    · have hget := congrArg (OrderedMap.get? · k) hrest
      simp only [OrderedMap.get?_erase, if_neg hk] at hget
      rw [hget]
      exact (Reordered.refl _).records k

/-- The names `b.js` and `B.js` are equal where chunks are sorted, and either comes first once. -/
theorem listedChunk_pass_reordered : ∃ p' q' changed,
    ChunkLimit.pass ⟨1, {}, by decide⟩ (listedChunk ["b.js", "B.js", "c.js"]) = (p', .ok changed) ∧
    ChunkLimit.pass ⟨1, {}, by decide⟩ (listedChunk ["c.js", "B.js", "b.js"]) = (q', .ok changed) ∧
    p'.Reordered q' := by
  have hone : oneChunk.Reached := (Reached.start {} {}).after_entrypoint "main" "main.js"
  have htwo : twoChunks.Reached := hone.after_async ⟨1⟩ none ["a.js"]
  have hlisted := htwo.after_async ⟨1⟩ none ["b.js", "B.js", "c.js"]
  obtain ⟨p', q', changed, hpass, hpass', h, -⟩ :=
    Reached.pass_reordered hlisted reordered_listedChunk ⟨1, {}, by decide⟩
  exact ⟨p', q', changed, hpass, hpass', h⟩

end Plan

end Bundler
