import Bundler.Plan.Limit
import Bundler.Proofs.Results
/-!
# What a pass keeps

A round brings candidates up to date in a few ways only, and changes the plan by merges only. What
holds of a state and survives each of these steps holds at the end of every round and of the pass,
whether it ends well or not. Bringing the candidates up to date touches neither the plan nor the
chunks noted as modified nor the merges still wanted. What each merge keeps of a plan, a failed one
included, the pass keeps.
-/
namespace Bundler

namespace Limiting
variable {Q : Limiting → Prop} {model : SizeModel} {s t : Limiting} {a b k : ChunkKey}
  {size n : Nat}

/-- The state that a round leaves, whether it goes on or not. -/
def Round.state : Round → Limiting
  | .next s => s
  | .stop s _ => s

/-- What holds of a state is kept by each step in which candidates are brought up to date. -/
structure Upkeep (Q : Limiting → Prop) : Prop where
  requeue : ∀ {s : Limiting}, Q s → ∀ queue, Q { s with queue }
  relist : ∀ {s : Limiting}, Q s → ∀ byChunk, Q { s with byChunk }
  gone : ∀ {s : Limiting}, Q s → ∀ n, Q (s.markGone n)
  retarget : ∀ {s : Limiting}, Q s → ∀ n wasFirst survivor size merged, Q { s with
    candidates := s.candidates.modify n (Candidate.retarget · wasFirst survivor size merged) }

namespace Upkeep
variable (hQ : Upkeep Q)
include hQ

theorem drop (h : Q s) (n : Nat) : Q (s.drop n) := by
  unfold Limiting.drop
  split
  · exact h
  · split
    · exact h
    · exact hQ.gone (hQ.requeue h _) n

theorem dropAll (h : Q s) (k : ChunkKey) : Q (s.dropAll k) := by
  have hdrops : ∀ (ns : List Nat) (s : Limiting), Q s → Q (ns.foldl Limiting.drop s) := by
    intro ns
    induction ns with
    | nil => exact fun _ hs => hs
    | cons n ns ih => exact fun s hs => ih (s.drop n) (hQ.drop hs n)
  exact hdrops _ _ (hQ.relist h _)

theorem handOver (h : Q s) (ht : Limiting.handOver model a b size s n = .ok t) : Q t := by
  unfold Limiting.handOver at ht
  split at ht
  · cases ht
    exact h
  · split at ht
    · cases ht
      exact h
    · simp only [bind, Except.bind] at ht
      repeat' split at ht
      all_goals first
        | contradiction
        | (cases ht; first | exact hQ.drop h n | exact hQ.requeue (hQ.retarget h n ..) _)

theorem handOverAll (h : Q s) (ht : Limiting.handOverAll model a b size s = .ok t) : Q t := by
  obtain ⟨u, hu, ht⟩ := exists_of_bind_eq_ok ht
  cases ht
  exact hQ.relist (foldlM_keeps (fun _ _ _ hv hw => hQ.handOver hv hw) (hQ.relist h _) hu) _

theorem refresh (h : Q s) (model : SizeModel) (a b : ChunkKey) (size : Nat) :
    Q (s.refresh model a b size).state := by
  unfold Limiting.refresh
  split
  · exact h
  · rename_i t ht
    exact hQ.handOverAll (hQ.dropAll h a) ht

end Upkeep

/-- What a pass keeps besides its candidates. -/
structure Standing where
  plan : Plan
  modified : OrderedSet ChunkKey
  budget : Nat
  changed : Bool

def standing (s : Limiting) : Standing := ⟨s.plan, s.modified, s.budget, s.changed⟩

/-- Bringing the candidates up to date changes nothing else. -/
theorem upkeep_standing (r : Standing) : Upkeep fun s => s.standing = r where
  requeue h _ := h
  relist h _ := h
  gone h _ := h
  retarget h _ _ _ _ _ := h

theorem standing_refresh (s : Limiting) (model : SizeModel) (a b : ChunkKey) (size : Nat) :
    (s.refresh model a b size).state.standing = s.standing :=
  (upkeep_standing s.standing).refresh rfl model a b size

theorem plan_dropAll (s : Limiting) (k : ChunkKey) : (s.dropAll k).plan = s.plan :=
  congrArg Standing.plan ((upkeep_standing s.standing).dropAll rfl k)

theorem plan_refresh (s : Limiting) (model : SizeModel) (a b : ChunkKey) (size : Nat) :
    (s.refresh model a b size).state.plan = s.plan :=
  congrArg Standing.plan (standing_refresh s model a b size)

theorem plan_passOver (s : Limiting) (a b : ChunkKey) : (s.passOver a b).state.plan = s.plan := by
  unfold passOver
  split
  · rfl
  · rfl

theorem consider_cases {pair : (Chunk × CandidateSide) × Chunk × CandidateSide}
    (h : consider model s pair = .ok t) : t = s ∨ ∃ merged byChunk, t = { s with
      candidates := s.candidates.push (.ofSides pair.1.2 pair.2.2 merged), byChunk } := by
  unfold consider at h
  simp only [bind, Except.bind] at h
  repeat' split at h
  all_goals first
    | contradiction
    | (cases h; first | exact Or.inl rfl | exact Or.inr ⟨_, _, rfl⟩)

/-- What holds before any pair was considered and is kept by a candidate that is added holds at the
start of a pass. -/
theorem start_keeps {budget : Nat} {p : Plan} (h : start model budget p = .ok s)
    (hempty : Q { plan := p, budget })
    (hrequeue : ∀ {s : Limiting}, Q s → ∀ queue, Q { s with queue })
    (hpush : ∀ {s : Limiting}, Q s → ∀ a b merged byChunk, Q { s with
      candidates := s.candidates.push (.ofSides a b merged), byChunk }) : Q s := by
  obtain ⟨sides, -, h⟩ := exists_of_bind_eq_ok h
  obtain ⟨u, hu, h⟩ := exists_of_bind_eq_ok h
  cases h
  refine hrequeue (foldlM_keeps ?_ hempty hu) _
  intro v pair w hv hw
  rcases consider_cases hw with rfl | ⟨merged, byChunk, rfl⟩
  · exact hv
  · exact hpush hv ..

theorem plan_start {budget : Nat} {p : Plan} (h : start model budget p = .ok s) : s.plan = p :=
  start_keeps (Q := fun s => s.plan = p) h rfl (fun h _ => h) fun h _ _ _ _ => h

/-- What holds of a state is kept by each step of a round. -/
structure Lasts (Q : Limiting → Prop) : Prop extends Upkeep Q where
  advance : ∀ {s : Limiting} {plan : Plan}, Q s →
    plan = s.plan ∨ (∃ a b, plan = (s.plan.merge a b).1) →
    ∀ modified budget changed, Q { s with plan, modified, budget, changed }

namespace Lasts
variable (hQ : Lasts Q)
include hQ

theorem mergePair (h : Q s) (model : SizeModel) (a b : ChunkKey) (size : Nat) :
    Q (s.mergePair model a b size).state := by
  have hmerge : ∀ modified budget changed,
      Q { s with plan := (s.plan.merge a b).1, modified, budget, changed } :=
    hQ.advance h (Or.inr ⟨a, b, rfl⟩)
  unfold Limiting.mergePair
  split
  · rename_i p e hp
    rw [hp] at hmerge
    exact hmerge s.modified s.budget s.changed
  · rename_i p hp
    rw [hp] at hmerge
    dsimp only
    split
    · exact hmerge ..
    · exact hQ.refresh (hmerge ..) model a b size

theorem settle (h : Q s) (model : SizeModel) (c : Candidate) (A B : Chunk) :
    Q (s.settle model c A B).state := by
  unfold Limiting.settle
  split
  · unfold passOver
    split
    · exact hQ.advance h (Or.inl rfl) s.modified _ s.changed
    · exact hQ.advance h (Or.inl rfl) _ _ s.changed
  · split
    · exact h
    · exact h
    · exact hQ.mergePair h ..

theorem round (h : Q s) (model : SizeModel) (n : Nat) : Q (Limiting.round model s n).state := by
  unfold Limiting.round
  split
  · exact h
  · split
    · exact hQ.settle (hQ.gone h n) ..
    · exact hQ.gone h n
    · exact hQ.gone h n

theorem run (h : Q s) : Q (s.run model).1 := by
  fun_induction Limiting.run model s with
  | case1 s queue hpop => exact hQ.requeue h queue
  | case2 s n queue hpop t r hround =>
    have hkept := hQ.round (hQ.requeue h queue) model n
    rw [hround] at hkept
    exact hkept
  | case3 s n queue hpop t hround ih =>
    have hkept := hQ.round (hQ.requeue h queue) model n
    rw [hround] at hkept
    exact ih hkept

end Lasts

theorem lasts_plan {P : Plan → Prop} (hmerge : ∀ p a b, P p → P (p.merge a b).1) :
    Lasts fun s => P s.plan where
  requeue h _ := h
  relist h _ := h
  gone h _ := h
  retarget h _ _ _ _ _ := h
  advance := by
    intro s plan h hplan _ _ _
    rcases hplan with rfl | ⟨a, b, rfl⟩
    · exact h
    · exact hmerge s.plan a b h

end Limiting

/-- What every merge of two chunks keeps, a pass keeps, whether it ends well or not. -/
theorem ChunkLimit.pass_keeps {P : Plan → Prop} (hmerge : ∀ p a b, P p → P (p.merge a b).1)
    (l : ChunkLimit) {p : Plan} (h : P p) : P (l.pass p).1 := by
  unfold pass
  split
  · exact h
  · split
    · exact h
    · rename_i s hs
      have hrun : P (s.run l.model).1.plan :=
        (Limiting.lasts_plan hmerge).run (Limiting.plan_start hs ▸ h)
      split
      · rename_i t ht
        rw [ht] at hrun
        exact hrun
      · rename_i t e ht
        rw [ht] at hrun
        exact hrun

end Bundler
