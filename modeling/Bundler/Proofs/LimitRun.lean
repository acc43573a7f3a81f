import Bundler.Proofs.LimitRound
/-!
# Whole passes

The heads of the rounds of a pass are closed under any order in which waiting candidates may come to
be sorted. The invariant holds at all of them, so that a pass never fails. It merges as often as its
budget allows, and one that merges nothing has found no pair that may be merged.
-/
namespace Bundler

theorem Plan.MergeStep.chunkCount {p q : Plan} (h : p.MergeStep q) :
    q.chunkCount + 1 = p.chunkCount := by
  obtain ⟨A, B, r, s, -, j⟩ := h
  exact j.chunkCount

namespace Limiting
variable {p : Plan} {model : SizeModel} {ks : List ChunkKey} {budget : Nat} {s s₀ t : Limiting}

/-- The states in which a pass that starts with `s₀` may come to the head of a round, the waiting
candidates in any order. -/
inductive Head (model : SizeModel) (s₀ : Limiting) : Limiting → Prop where
  | start : Head model s₀ s₀
  | drained {s : Limiting} {ws : List Nat} (h : Head model s₀ s) (hws : ws.Perm s.queue.waiting) :
      Head model s₀ { s with queue := { s.queue with waiting := ws } }
  | next {s t : Limiting} {n : Nat} {queue : CandidateQueue} (h : Head model s₀ s)
      (hpop : s.queue.popFirst s.candidates.keys = (some n, queue))
      (hround : round model { s with queue } n = .next t) : Head model s₀ t

theorem Head.inv (h : Head model s₀ s) (h₀ : Inv model s₀) : Inv model s ∧ Stems s₀ s := by
  induction h with
  | start => exact ⟨h₀, fun hd => ⟨_, hd, rfl, rfl⟩⟩
  | drained _ hws ih =>
    obtain ⟨hinv, hstems⟩ := ih
    exact ⟨{ hinv with queued := BucketQueue.Holds.perm hinv.queued hws }, hstems⟩
  | next _ hpop hround ih =>
    obtain ⟨hinv, hstems⟩ := ih
    obtain ⟨c, u, -, -, -, hstop | ⟨hnext, hinv', hstems'⟩⟩ := round_ok hinv hpop
    · rw [hround] at hstop
      cases hstop
    · rw [hround] at hnext
      cases hnext
      exact ⟨hinv', hstems.trans hstems'⟩

/-- What a round keeps, whatever becomes of its candidate, a whole run keeps, and it never fails. -/
theorem run_ok {P : Limiting → Prop} (hqueue : ∀ {s queue}, P s → P { s with queue })
    (hsettled : ∀ {s c t}, P s → Settled s c t → P t) (h : Inv model s) (hP : P s) :
    ∃ t, s.run model = (t, .ok ()) ∧ P t := by
  fun_induction run model s with
  | case1 s queue hpop => exact ⟨_, rfl, hqueue hP⟩
  | case2 s n queue hpop t r hround =>
    obtain ⟨c, u, -, -, hu, hstop | ⟨hnext, -⟩⟩ := round_ok h hpop
    · rw [hround] at hstop
      cases hstop
      exact ⟨t, rfl, hsettled hP hu⟩
    · rw [hround] at hnext
      cases hnext
  | case3 s n queue hpop t hround ih =>
    obtain ⟨c, u, -, -, hu, hstop | ⟨hnext, hinv, -⟩⟩ := round_ok h hpop
    · rw [hround] at hstop
      cases hstop
    · rw [hround] at hnext
      cases hnext
      exact ih hinv (hsettled hP hu)

/-- How far a pass over the plan `p` that is to leave `max` chunks has come. -/
structure Progress (p : Plan) (max : Nat) (s : Limiting) : Prop where
  merges : p.Merges s.plan
  unchanged : s.changed = false → s.plan = p
  lowered : s.changed = true → s.plan.chunkCount < p.chunkCount
  room : max + s.budget ≤ s.plan.chunkCount

theorem Progress.settled {max : Nat} {c : Candidate} (h : Progress p max s) (ht : Settled s c t) :
    Progress p max t := by
  cases ht with
  | kept hplan hchanged hbudget _ =>
    have hroom := h.room
    exact {
      merges := hplan ▸ h.merges
      unchanged := fun hc => hplan.trans (h.unchanged (hchanged ▸ hc))
      lowered := fun hc => hplan ▸ h.lowered (hchanged ▸ hc)
      room := by
        rw [hplan]
        omega }
  | merged hstep _ hchanged hbudget =>
    have hroom := h.room
    have hcount := hstep.chunkCount
    have hle : s.plan.chunkCount ≤ p.chunkCount := by
      cases hs : s.changed with
      | false => exact Nat.le_of_eq (congrArg Plan.chunkCount (h.unchanged hs))
      | true => exact Nat.le_of_lt (h.lowered hs)
    exact {
      merges := h.merges.tail hstep
      unchanged := fun hc => by
        rw [hchanged] at hc
        cases hc
      lowered := fun _ => by omega
      room := by omega }

/-- A whole run from the start of a pass. One that changes nothing had no candidate. -/
theorem Started.run_ok (hs : Started p model budget ks s) (max : Nat) (h : p.Consistent)
    (hbudget : 1 ≤ budget) (hroom : max + budget ≤ p.chunkCount) :
    ∃ t, s.run model = (t, .ok ()) ∧ Progress p max t ∧
      (t.changed = false → ∀ n, ¬ s.IsLive n) := by
  have hinv := hs.inv h hbudget
  have hprogress : Progress p max s := {
    merges := hs.plan ▸ .refl
    unchanged := fun _ => hs.plan
    lowered := fun hc => by
      rw [hs.changed] at hc
      cases hc
    room := by
      rw [hs.plan, hs.budget]
      exact hroom }
  rw [run]
  split
  · rename_i queue hpop
    exact ⟨_, rfl, ⟨hprogress.merges, hprogress.unchanged, hprogress.lowered, hprogress.room⟩,
      fun _ => BucketQueue.Holds.popFirst_none hinv.queued hpop⟩
  · rename_i n queue hpop
    obtain ⟨c, t, hc, -, hsettled, hend⟩ := round_ok hinv hpop
    have hnext := hprogress.settled hsettled
    -- Nothing was changed before the first round, so nothing blocks its candidate.
    have hchanged : t.changed = true := by
      cases hsettled with
      | merged _ _ hchanged _ => exact hchanged
      | kept _ _ _ hreason =>
        rcases hreason with hmodified | hmay
        · exact absurd hs.modified hmodified
        · rw [hs.plan, hs.mergeable hc] at hmay
          cases hmay
    split
    · rename_i u r hround
      rcases hend with hstop | ⟨hnext', -⟩
      · rw [hround] at hstop
        cases hstop
        exact ⟨t, rfl, hnext, fun hc => by rw [hchanged] at hc; cases hc⟩
      · rw [hround] at hnext'
        cases hnext'
    · rename_i u hround
      rcases hend with hstop | ⟨hnext', hinv', -⟩
      · rw [hround] at hstop
        cases hstop
      · rw [hround] at hnext'
        cases hnext'
        obtain ⟨v, hv, hprogress', hchanged'⟩ := Limiting.run_ok
          (P := fun s => Progress p max s ∧ s.changed = true)
          (fun hP => ⟨⟨hP.1.merges, hP.1.unchanged, hP.1.lowered, hP.1.room⟩, hP.2⟩)
          (fun hP hu => ⟨hP.1.settled hu, hu.changed hP.2⟩) hinv' ⟨hnext, hchanged⟩
        exact ⟨v, hv, hprogress', fun hc => by rw [hchanged'] at hc; cases hc⟩

end Limiting

/-- What a pass over the plan `p` that leaves the plan `q` and answers `changed` has done. -/
structure ChunkLimit.Passed (l : ChunkLimit) (p q : Plan) (changed : Bool) : Prop where
  merges : p.Merges q
  lowered : changed = true ↔ q.chunkCount < p.chunkCount
  unchanged : changed = false → q = p
  below : p.chunkCount ≤ l.maxChunks → q = p
  above : l.maxChunks < p.chunkCount → l.maxChunks ≤ q.chunkCount
  stuck : l.maxChunks < p.chunkCount → changed = false → ∀ k ∈ p.chunks.keys,
    ∀ i ∈ p.chunks.keys, k ≠ i → p.canMergeKeys k i = .ok false

theorem ChunkLimit.pass_ok (l : ChunkLimit) {p : Plan} (h : p.Consistent) :
    ∃ q changed, l.pass p = (q, .ok changed) ∧ l.Passed p q changed := by
  unfold ChunkLimit.pass
  by_cases hcount : p.chunkCount ≤ l.maxChunks
  · rw [if_pos hcount]
    refine ⟨p, false, rfl, ?_⟩
    exact {
      merges := .refl
      lowered := ⟨fun hc => Bool.noConfusion hc, fun hlt => absurd hlt (Nat.lt_irrefl _)⟩
      unchanged := fun _ => rfl
      below := fun _ => rfl
      above := fun hlt => Nat.le_of_lt hlt
      stuck := fun hlt => absurd hcount (Nat.not_le_of_lt hlt) }
  · rw [if_neg hcount]
    obtain ⟨ks, s, -, -, hstart, hs⟩ :=
      Limiting.start_ok h l.model (p.chunkCount - l.maxChunks)
    obtain ⟨t, hrun, hprogress, hnone⟩ := hs.run_ok l.maxChunks h (by omega) (by omega)
    have hroom := hprogress.room
    rw [hstart]
    refine ⟨t.plan, t.changed, by simp only [hrun], ?_⟩
    refine { merges := hprogress.merges, lowered := ⟨hprogress.lowered, ?_⟩,
             unchanged := hprogress.unchanged, below := fun hle => absurd hle hcount,
             above := fun _ => by omega, stuck := ?_ }
    · intro hlt
      cases hc : t.changed with
      | true => rfl
      | false =>
        rw [hprogress.unchanged hc] at hlt
        exact absurd hlt (Nat.lt_irrefl _)
    · intro _ hc k hk i hi hne
      obtain ⟨C, hC⟩ := OrderedMap.exists_of_mem_keys hk
      obtain ⟨D, hD⟩ := OrderedMap.exists_of_mem_keys hi
      obtain ⟨may, hmay, -⟩ := h.canMergeKeys_ok hC hD
      cases may with
      | false => exact hmay
      | true =>
        obtain ⟨n, c, hn, -⟩ := hs.complete hk hi hne hmay
        exact absurd ⟨c, hn, hs.fresh hn⟩ (hnone hc n)

/-- The plans that come from a new one, over whatever modules, by adding entrypoints and on-demand
chunks, pinning chunks, passes of merging, and changes of the module graph. -/
inductive Plan.Reached : Plan → Prop where
  | start (modules : ModuleGraph) (supply : KeySupply) : Reached { modules, supply }
  | entrypoint {p q : Plan} {name : String} {entry : ModuleId} {g : GroupKey} {c : ChunkKey}
      (h : Reached p) (hadd : p.addEntrypoint name entry = (q, .ok (g, c))) : Reached q
  | async {p q : Plan} {parent : GroupKey} {name : Option String} {ms : List ModuleId}
      {g : GroupKey} {c : ChunkKey} (h : Reached p)
      (hadd : p.addAsyncChunk parent name ms = (q, .ok (g, c))) : Reached q
  | pin {p : Plan} (h : Reached p) (k : ChunkKey) : Reached (p.pin k)
  | pass {p : Plan} (h : Reached p) (l : ChunkLimit) : Reached (l.pass p).1
  | graph {p : Plan} (h : Reached p) (modules : ModuleGraph) : Reached { p with modules }

theorem Plan.Reached.consistent {p : Plan} (h : p.Reached) : p.Consistent := by
  induction h with
  | start modules supply => exact consistent_empty modules supply
  | entrypoint _ hadd ih =>
    obtain ⟨-, -, hgrown⟩ := ih.grown_of_addEntrypoint hadd
    exact hgrown.consistent ih
  | async _ hadd ih =>
    obtain ⟨above, -, -, -, hgrown⟩ := ih.grown_of_addAsyncChunk hadd
    exact hgrown.consistent ih
  | pin _ k ih => exact ih.pin k
  | pass _ l ih =>
    obtain ⟨q, changed, hpass, hpassed⟩ := l.pass_ok ih
    rw [hpass]
    exact hpassed.merges.consistent ih
  | graph _ modules ih => exact { ih with }

namespace Plan

theorem Reached.after_entrypoint {p : Plan} (h : p.Reached) (name : String) (entry : ModuleId) :
    (p.addEntrypoint name entry).1.Reached := by
  obtain ⟨q, g, c, hadd⟩ := p.exists_addEntrypoint name entry
  rw [hadd]
  exact h.entrypoint hadd

theorem Reached.after_async {p : Plan} (h : p.Reached) (parent : GroupKey) (name : Option String)
    (ms : List ModuleId) : (p.addAsyncChunk parent name ms).1.Reached := by
  rcases p.addAsyncChunk_cases parent name ms with hrefused | ⟨q, g, c, hadd⟩
  · rw [hrefused]
    exact h
  · rw [hadd]
    exact h.async hadd

def oneChunk : Plan := (addEntrypoint {} "main" "main.js").1

def twoChunks : Plan := (oneChunk.addAsyncChunk ⟨1⟩ none ["a.js"]).1

def threeChunks : Plan := (twoChunks.addAsyncChunk ⟨1⟩ none ["b.js"]).1

theorem reached_threeChunks : threeChunks.Reached := by
  have hone : oneChunk.Reached := (Reached.start {} {}).after_entrypoint "main" "main.js"
  have htwo : twoChunks.Reached := hone.after_async ⟨1⟩ none ["a.js"]
  exact htwo.after_async ⟨1⟩ none ["b.js"]

end Plan

end Bundler
