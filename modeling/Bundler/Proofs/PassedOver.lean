import Bundler.Proofs.Availability
import Bundler.Proofs.LimitRun
import Bundler.Proofs.PassKeeps
/-!
# Pairs that a pass passes over

A pass marks the survivors of its merges and the chunks of the pairs that it passes over. It passes
a pair over, at the cost of one merge, just if a marked chunk that is neither of the two and still
stored belongs to a group in or above theirs. Which chunks are marked is told by the history of the
pass, the events of its rounds so far.
-/
namespace Bundler

/-- One of the chunks `ks`, still stored and neither of the two, belongs to a group of `A` or `B` or
to one above such a group. -/
def Plan.Shadowed (p : Plan) (ks : List ChunkKey) (A B : Chunk) : Prop :=
  ∃ k ∈ ks, k ≠ A.key ∧ k ≠ B.key ∧ ∃ C, p.chunks.get? k = some C ∧
    ∃ g h, (g ∈ A.groups ∨ g ∈ B.groups) ∧ Relation.ReflTransGen p.groups.Parent g h ∧ h ∈ C.groups

namespace Limiting

/-- What may become of a pair that was taken. -/
inductive Outcome where
  | passedOver
  | refused
  | merged
  deriving DecidableEq

structure Event where
  outcome : Outcome
  a : ChunkKey
  b : ChunkKey

/-- The event leads from `s` to `t`, by what it does to the plan and to the merges still wanted. -/
def Event.Leads (s t : Limiting) : Event → Prop
  | ⟨.passedOver, _, _⟩ => t.plan = s.plan ∧ t.budget + 1 = s.budget
  | ⟨.refused, _, _⟩ => t.plan = s.plan ∧ t.budget = s.budget
  | ⟨.merged, a, b⟩ => s.plan.merge a b = (t.plan, .ok ()) ∧
      t.plan.chunkCount < s.plan.chunkCount ∧ t.budget + 1 = s.budget

/-- The chunks that an event marks. -/
def Event.marks : Event → List ChunkKey
  | ⟨.passedOver, a, b⟩ => [a, b]
  | ⟨.refused, _, _⟩ => []
  | ⟨.merged, a, _⟩ => [a]

/-- The events so far of a pass that started with `s₀` and has come to the head of a round in the
given state, the waiting candidates in any order. -/
inductive Course (model : SizeModel) (s₀ : Limiting) : List Event → Limiting → Prop where
  | start : Course model s₀ [] s₀
  | drained {es : List Event} {s : Limiting} {ws : List Nat} (h : Course model s₀ es s)
      (hws : ws.Perm s.queue.waiting) :
      Course model s₀ es { s with queue := { s.queue with waiting := ws } }
  | next {es : List Event} {s t : Limiting} {n : Nat} {queue : CandidateQueue} {c : Candidate}
      {o : Outcome} (h : Course model s₀ es s)
      (hpop : s.queue.popFirst s.candidates.keys = (some n, queue))
      (hc : s.candidates.get? n = some c)
      (hround : round model { s with queue } n = .next t)
      (hlead : Event.Leads s t ⟨o, c.a.chunk, c.b.chunk⟩) :
      Course model s₀ (es ++ [⟨o, c.a.chunk, c.b.chunk⟩]) t

def marked (es : List Event) : List ChunkKey := es.flatMap Event.marks

/-- A run that has come to the head `s` of a round ends there with the given state and result: no
candidate is left, or the round stops. -/
inductive Ends (model : SizeModel) (s : Limiting) : Limiting × Except GraphError Unit → Prop where
  | exhausted {queue : CandidateQueue} (hpop : s.queue.popFirst s.candidates.keys = (none, queue)) :
      Ends model s ({ s with queue }, .ok ())
  | stopped {n : Nat} {queue : CandidateQueue} {t : Limiting} {r : Except GraphError Unit}
      (hpop : s.queue.popFirst s.candidates.keys = (some n, queue))
      (hround : round model { s with queue } n = .stop t r) : Ends model s (t, r)

variable {model : SizeModel} {s s₀ t : Limiting} {n : Nat} {queue : CandidateQueue} {A B : Chunk}
  {c : Candidate} {es : List Event}

theorem isBlocked_iff : s.isBlocked A B = true ↔ s.plan.Shadowed s.modified.toList A B := by
  unfold isBlocked Plan.Shadowed
  simp only [List.any_eq_true, decide_eq_true_iff, List.mem_filterMap, List.mem_filter,
    Groups.mem_above_nil, List.mem_append, ← OrderedSet.mem_iff]
  constructor
  · intro hex
    rcases hex with ⟨h, ⟨g, hg, hup⟩, C, ⟨k, ⟨hk, hne⟩, hC⟩, hin⟩
    exact ⟨k, hk, hne.1, hne.2, C, hC, g, h, hg, hup, hin⟩
  · intro hex
    rcases hex with ⟨k, hk, ha, hb, C, hC, g, h, hg, hup, hin⟩
    exact ⟨h, ⟨g, hg, hup⟩, C, ⟨k, ⟨hk, ha, hb⟩, hC⟩, hin⟩

theorem Event.Leads.unique {o o' : Outcome} {a b : ChunkKey} (h : Event.Leads s t ⟨o, a, b⟩)
    (h' : Event.Leads s t ⟨o', a, b⟩) : o = o' := by
  have hmerged : ∀ {q : Plan}, q = s.plan → ¬ q.chunkCount < s.plan.chunkCount := by
    intro q hq hlt
    rw [hq] at hlt
    exact Nat.lt_irrefl _ hlt
  cases o <;> cases o' <;> simp only [Event.Leads] at h h'
  all_goals first
    | rfl
    | exact absurd h'.2.1 (hmerged h.1)
    | exact absurd h.2.1 (hmerged h'.1)
    | exact absurd (h.2.trans h'.2.symm) (by omega)

theorem standing_mergePair {q : Plan} {a b : ChunkKey} (model : SizeModel) (size : Nat)
    (hmerge : s.plan.merge a b = (q, .ok ())) :
    (s.mergePair model a b size).state.standing = ⟨q, s.modified.insert a, s.budget - 1, true⟩ := by
  unfold mergePair
  rw [hmerge]
  dsimp only
  split
  · rfl
  · exact standing_refresh ..

/-- Settling a candidate is an event. It passes the pair over just if that is blocked, and leaves
the chunks of the event marked besides those marked before. -/
theorem settle_leads (h : Inv model s) (hc : s.plan.Rates model c)
    (hA : s.plan.chunks.get? c.a.chunk = some A) (hB : s.plan.chunks.get? c.b.chunk = some B) :
    ∃ o : Outcome, Event.Leads s (s.settle model c A B).state ⟨o, c.a.chunk, c.b.chunk⟩ ∧
      (o = .passedOver ↔ s.isBlocked A B = true) ∧ ∀ t, s.settle model c A B = .next t →
        t.modified = s.modified.insertAll (Event.marks ⟨o, c.a.chunk, c.b.chunk⟩) := by
  have hbudget := Nat.sub_add_cancel h.budget
  unfold settle
  by_cases hblocked : s.isBlocked A B = true
  · rw [if_pos hblocked]
    refine ⟨.passedOver, ⟨plan_passOver s _ _, ?_⟩, iff_of_true rfl hblocked, ?_⟩
    · unfold passOver
      split
      · exact hbudget
      · exact hbudget
    · intro t ht
      unfold passOver at ht
      split at ht
      · cases ht
      · cases ht
        rfl
  · rw [if_neg hblocked]
    obtain ⟨may, hmay, -⟩ := h.plan.canMergeKeys_ok hA hB
    rw [Plan.canMergeKeys_eq hA hB] at hmay
    rw [hmay]
    cases may with
    | false =>
      refine ⟨.refused, ⟨rfl, rfl⟩, iff_of_false (fun ho => by cases ho) hblocked, ?_⟩
      intro t ht
      cases ht
      rfl
    | true =>
      obtain ⟨q, r, r', hmerge, j⟩ := h.plan.merge_ok hc.ne hA hB
      have hstanding := standing_mergePair model c.mergedSize hmerge
      refine ⟨.merged, ?_, iff_of_false (fun ho => by cases ho) hblocked, ?_⟩
      · have hplan := congrArg Standing.plan hstanding
        have hspent := congrArg Standing.budget hstanding
        have hcount := j.chunkCount
        simp only [standing] at hplan hspent
        refine ⟨?_, ?_, ?_⟩
        · rw [hmerge, hplan]
        · rw [hplan]
          omega
        · rw [hspent]
          exact hbudget
      · intro t ht
        rw [show s.mergePair model c.a.chunk c.b.chunk c.mergedSize = .next t from ht] at hstanding
        exact congrArg Standing.modified hstanding

theorem round_leads (h : Inv model s)
    (hpop : s.queue.popFirst s.candidates.keys = (some n, queue)) :
    ∃ (c : Candidate) (A B : Chunk) (o : Outcome), s.candidates.get? n = some c ∧
      s.plan.chunks.get? c.a.chunk = some A ∧ s.plan.chunks.get? c.b.chunk = some B ∧
      Event.Leads s (round model { s with queue } n).state ⟨o, c.a.chunk, c.b.chunk⟩ ∧
      (o = .passedOver ↔ s.isBlocked A B = true) ∧ ∀ t, round model { s with queue } n = .next t →
        t.modified = s.modified.insertAll (Event.marks ⟨o, c.a.chunk, c.b.chunk⟩) := by
  obtain ⟨c, hc, hlive, htaken, -⟩ := h.take hpop
  have hrated := h.rated hc hlive
  obtain ⟨A, hA⟩ := Plan.stored_of_sizeOf hrated.sizeA
  obtain ⟨B, hB⟩ := Plan.stored_of_sizeOf hrated.sizeB
  obtain ⟨o, hlead, hblocked, hmarks⟩ := settle_leads htaken hrated hA hB
  have hround : round model { s with queue } n =
      ({ s with queue }.markGone n).settle model c A B := by
    simp only [round, hc, Chunks.require_eq_ok.mpr hA, Chunks.require_eq_ok.mpr hB]
  rw [hround]
  exact ⟨c, A, B, o, hc, hA, hB, hlead, hblocked, hmarks⟩

theorem Course.head (h : Course model s₀ es s) : Head model s₀ s := by
  induction h with
  | start => exact .start
  | drained _ hws ih => exact ih.drained hws
  | next _ hpop _ hround _ ih => exact ih.next hpop hround

/-- The run of a pass goes on as a course until it ends. -/
theorem Course.exists_ends (h : Course model s₀ es s) (h₀ : Inv model s₀) :
    ∃ es' t, Course model s₀ (es ++ es') t ∧ Ends model t (s.run model) := by
  fun_induction run model s generalizing es with
  | case1 s queue hpop => exact ⟨[], s, by rwa [List.append_nil], .exhausted hpop⟩
  | case2 s n queue hpop t r hround =>
    exact ⟨[], s, by rwa [List.append_nil], .stopped hpop hround⟩
  | case3 s n queue hpop t hround ih =>
    obtain ⟨c, A, B, o, hc, -, -, hlead, -, -⟩ := round_leads (h.head.inv h₀).1 hpop
    rw [hround] at hlead
    obtain ⟨es', u, hu, hend⟩ := ih (h.next hpop hc hround hlead)
    rw [List.append_assoc] at hu
    exact ⟨_, u, hu, hend⟩

/-- At the head of a round those chunks are noted as modified that the events so far have marked. -/
theorem Course.mem_modified (h : Course model s₀ es s) (h₀ : Inv model s₀)
    (hnone : s₀.modified = ∅) {k : ChunkKey} : k ∈ s.modified ↔ k ∈ marked es := by
  induction h with
  | start =>
    rw [hnone]
    exact iff_of_false (OrderedSet.not_mem_empty k) List.not_mem_nil
  | drained _ _ ih => exact ih
  | next hcourse hpop hc hround hlead ih =>
    obtain ⟨c, A, B, o, hc', -, -, hlead', -, hmarks⟩ := round_leads (hcourse.head.inv h₀).1 hpop
    rw [hc] at hc'
    cases hc'
    rw [hround] at hlead'
    have ho := hlead.unique hlead'
    subst ho
    rw [hmarks _ hround, OrderedSet.mem_insertAll, ih, marked, marked, List.flatMap_append,
      List.mem_append, List.flatMap_singleton]

/-- The round in which `s` takes the pair of chunks `A`, `B` leads to `t`. It ends the search above
their groups, and passes them over just if a chunk that was marked before is found there. -/
structure Decided (model : SizeModel) (es : List Event) (s : Limiting) (n : Nat)
    (queue : CandidateQueue) (A B : Chunk) (o : Outcome) (t : Limiting) : Prop where
  pair : ∃ c, s.candidates.get? n = some c ∧ c.a.chunk = A.key ∧ c.b.chunk = B.key
  stored : s.plan.chunks.get? A.key = some A ∧ s.plan.chunks.get? B.key = some B
  round : Limiting.round model { s with queue } n = .next t ∨
    Limiting.round model { s with queue } n = .stop t (.ok ())
  leads : Event.Leads s t ⟨o, A.key, B.key⟩
  search : (s.plan.groups.above [] (A.groups.toList ++ B.groups.toList)).length ≤
    A.groups.size + B.groups.size + s.plan.groups.namedParents.length
  passedOver : o = .passedOver ↔ s.plan.Shadowed (marked es) A B
  merged : o = .merged → ¬ s.plan.Shadowed (marked es) A B

theorem Course.decided (h : Course model s₀ es s) (h₀ : Inv model s₀) (hnone : s₀.modified = ∅)
    (hpop : s.queue.popFirst s.candidates.keys = (some n, queue)) :
    ∃ A B o t, Decided model es s n queue A B o t := by
  have hinv := (h.head.inv h₀).1
  obtain ⟨c, A, B, o, hc, hA, hB, hlead, hblocked, -⟩ := round_leads hinv hpop
  have hkeyA := hinv.plan.key hA
  have hkeyB := hinv.plan.key hB
  have hshadowed : o = .passedOver ↔ s.plan.Shadowed (marked es) A B := by
    rw [hblocked, isBlocked_iff]
    unfold Plan.Shadowed
    simp only [← OrderedSet.mem_iff, h.mem_modified h₀ hnone]
  have hround : Limiting.round model { s with queue } n =
      .next (Limiting.round model { s with queue } n).state ∨
      Limiting.round model { s with queue } n =
        .stop (Limiting.round model { s with queue } n).state (.ok ()) := by
    obtain ⟨-, t, -, -, -, hstop | ⟨hnext, -, -⟩⟩ := round_ok hinv hpop
    · rw [hstop]
      exact Or.inr rfl
    · rw [hnext]
      exact Or.inl rfl
  have hsearch := Groups.length_above_le s.plan.groups [] (A.groups.toList ++ B.groups.toList)
  rw [List.length_append] at hsearch
  rw [← hkeyA, ← hkeyB] at hlead
  refine ⟨A, B, o, _, {
    pair := ⟨c, hc, hkeyA.symm, hkeyB.symm⟩
    stored := ⟨hkeyA ▸ hA, hkeyB ▸ hB⟩
    round := hround
    leads := hlead
    search := hsearch
    passedOver := hshadowed
    merged := ?_ }⟩
  intro ho hin
  rw [← hshadowed, ho] at hin
  cases hin

end Limiting

namespace Plan
variable {p : Plan}

/-- A pass is a course of events that comes to its end, and every pair that is taken in it is
decided by the chunks that were marked before. -/
theorem Reached.pass_decided (hp : p.Reached) (l : ChunkLimit) (hcount : l.maxChunks < p.chunkCount) :
    ∃ s₀, Limiting.start l.model (p.chunkCount - l.maxChunks) p = .ok s₀ ∧
      (∃ es s t, Limiting.Course l.model s₀ es s ∧ Limiting.Ends l.model s (t, .ok ()) ∧
        l.pass p = (t.plan, .ok t.changed)) ∧
      ∀ es s n queue, Limiting.Course l.model s₀ es s →
        s.queue.popFirst s.candidates.keys = (some n, queue) →
        ∃ A B o t, Limiting.Decided l.model es s n queue A B o t := by
  have h := hp.consistent
  obtain ⟨ks, s₀, -, -, hstart, hstarted⟩ :=
    Limiting.start_ok h l.model (p.chunkCount - l.maxChunks)
  have hinv := hstarted.inv h (by omega)
  refine ⟨s₀, hstart, ?_, ?_⟩
  · obtain ⟨t, hrun, -⟩ := Limiting.run_ok (P := fun _ => True) (fun _ => trivial)
      (fun _ _ => trivial) hinv trivial
    have hcourse : Limiting.Course l.model s₀ [] s₀ := .start
    obtain ⟨es, s, hs, hend⟩ := hcourse.exists_ends hinv
    rw [hrun] at hend
    refine ⟨es, s, t, hs, hend, ?_⟩
    unfold ChunkLimit.pass
    rw [if_neg (Nat.not_le_of_lt hcount), hstart]
    simp only [hrun]
  · intro es s n queue hes hpop
    exact hes.decided hinv hstarted.modified hpop

/-- The entry chunk loads `x` and `y`, and `x` loads `z`. -/
def nestedChunks : Plan :=
  let x := (oneChunk.addAsyncChunk ⟨1⟩ (some "x") ["x.js"]).1
  let y := (x.addAsyncChunk ⟨1⟩ (some "y") ["y.js"]).1
  let z := (y.addAsyncChunk ⟨3⟩ (some "z") ["z.js"]).1
  let sizes := [("main.js", 6), ("x.js", 4), ("y.js", 5), ("z.js", 7)]
  { z with
    modules := sizes.foldl (fun m (id, n) => m.add { id, sizes := { javascript := some n } }) {} }

theorem reached_nestedChunks : nestedChunks.Reached := by
  have hmain : oneChunk.Reached := (Reached.start {} {}).after_entrypoint "main" "main.js"
  have hx := hmain.after_async ⟨1⟩ (some "x") ["x.js"]
  have hy := hx.after_async ⟨1⟩ (some "y") ["y.js"]
  exact (hy.after_async ⟨3⟩ (some "z") ["z.js"]).graph _

theorem nestedChunks_pass_decided : nestedChunks.Reached ∧ 2 < nestedChunks.chunkCount ∧
    ∃ s₀, Limiting.start ⟨some 100, some 1⟩ (nestedChunks.chunkCount - 2) nestedChunks = .ok s₀ ∧
      (∃ es s t, Limiting.Course ⟨some 100, some 1⟩ s₀ es s ∧
        Limiting.Ends ⟨some 100, some 1⟩ s (t, .ok ()) ∧
        ChunkLimit.pass ⟨2, ⟨some 100, some 1⟩, by decide⟩ nestedChunks =
          (t.plan, .ok t.changed)) ∧
      ∀ es s n queue, Limiting.Course ⟨some 100, some 1⟩ s₀ es s →
        s.queue.popFirst s.candidates.keys = (some n, queue) →
        ∃ A B o t, Limiting.Decided ⟨some 100, some 1⟩ es s n queue A B o t :=
  ⟨reached_nestedChunks, by decide, Reached.pass_decided reached_nestedChunks
    ⟨2, ⟨some 100, some 1⟩, by decide⟩ (by decide)⟩

end Plan

end Bundler
