import Bundler.Proofs.PassKeeps
import Bundler.Proofs.LimitRun
import Mathlib.Algebra.Group.Int.Defs
import Mathlib.Algebra.Group.Nat.Defs
/-!
# Savings

What merging saves is what two sizes have together less what they merge to, both cut off at the
largest signed number. So it is never the smallest signed number and can always be negated. Every
candidate of a pass, from the start or handed over to a survivor, carries what its sizes save.
-/
namespace Bundler

section Saving
variable {a a' b b' merged merged' : Nat}

/-- The difference needs no cut at the lower end, and cuts before the sum are not seen after it. -/
theorem sizeDiff_eq (a b merged : Nat) : sizeDiff a b merged =
    min ((a : Int) + b) (2 ^ 63 - 1) - min (merged : Int) (2 ^ 63 - 1) := by
  have hlargest : Size.largestSigned = 2 ^ 63 - 1 := rfl
  have hsmallest : Size.smallestSigned = -2 ^ 63 := rfl
  unfold sizeDiff Size.capSigned Size.signed
  omega

theorem sizeDiff_bounds (a b merged : Nat) :
    -(2 ^ 63 - 1) ≤ sizeDiff a b merged ∧ sizeDiff a b merged ≤ 2 ^ 63 - 1 := by
  rw [sizeDiff_eq]
  omega

theorem sizeDiff_exact (hsum : a + b ≤ 2 ^ 63 - 1) (hmerged : merged ≤ 2 ^ 63 - 1) :
    sizeDiff a b merged = (a : Int) + b - merged := by
  rw [sizeDiff_eq]
  omega

theorem sizeDiff_mono (ha : a ≤ a') (hb : b ≤ b') (hmerged : merged' ≤ merged) :
    sizeDiff a b merged ≤ sizeDiff a' b' merged' := by
  rw [sizeDiff_eq, sizeDiff_eq]
  omega

end Saving

/-- The candidate carries what its sizes save. -/
def Candidate.Weighed (c : Candidate) : Prop := c.saving = sizeDiff c.a.size c.b.size c.mergedSize

/-- The keys by which the candidate is sorted, the negated saving among them, lie in the signed
range. -/
def Candidate.KeysFit (c : Candidate) : Prop :=
  ∀ key ∈ c.leaf :: c.path, -(2 ^ 63 - 1) ≤ key ∧ key ≤ 2 ^ 63 - 1

theorem Candidate.Weighed.keysFit {c : Candidate} (h : c.Weighed) : c.KeysFit := by
  have hsigned : ∀ n, -(2 ^ 63 - 1) ≤ Size.signed n ∧ Size.signed n ≤ 2 ^ 63 - 1 := by
    intro n
    have hlargest : Size.largestSigned = 2 ^ 63 - 1 := rfl
    unfold Size.signed
    omega
  have hsaving := sizeDiff_bounds c.a.size c.b.size c.mergedSize
  rw [← h] at hsaving
  simp only [KeysFit, path, List.forall_mem_cons]
  refine ⟨hsigned _, ?_, hsigned _, hsigned _, fun _ hkey => absurd hkey List.not_mem_nil⟩
  omega

namespace Limiting
variable {Q : Limiting → Prop} {model : SizeModel} {s s₀ : Limiting}

/-- Where a survivor takes the first side, the saving is found with the two sizes the other way. -/
theorem weighed_retarget (c : Candidate) (wasFirst : Bool) (survivor : ChunkKey)
    (size merged : Nat) : (Candidate.retarget c wasFirst survivor size merged).Weighed := by
  unfold Candidate.retarget
  cases wasFirst with
  | true => exact sizeDiff_comm ..
  | false => rfl

/-- All candidates, the dropped ones included, carry what their sizes save. -/
def Weighed (s : Limiting) : Prop := ∀ n c, s.candidates.get? n = some c → c.Weighed

theorem weighed_modify {f : Candidate → Candidate} (h : s.Weighed)
    (hf : ∀ c, c.Weighed → (f c).Weighed) (n : Nat) :
    { s with candidates := s.candidates.modify n f }.Weighed := by
  intro i d hd
  obtain ⟨c, hc, ⟨-, rfl⟩ | ⟨-, rfl⟩⟩ := Candidates.get?_modify_cases hd
  · exact hf c (h i c hc)
  · exact h i d hc

theorem lasts_weighed : Lasts Weighed where
  requeue h _ := h
  relist h _ := h
  gone h n := weighed_modify (f := fun c => { c with gone := true }) h (fun _ hc => hc) n
  retarget h n _ _ _ _ := weighed_modify h (fun c _ => weighed_retarget c ..) n
  advance h _ _ _ _ := h

theorem weighed_start {budget : Nat} {p : Plan} (h : start model budget p = .ok s) : s.Weighed := by
  refine start_keeps h ?_ (fun h _ => h) ?_
  · intro n c hc
    simp [Candidates.get?] at hc
  · intro s hs a b merged byChunk n c hc
    rcases Candidates.get?_push_cases hc with ⟨-, rfl⟩ | hold
    · rfl
    · exact hs n c hold

/-- What lasts holds at the head of every round if it does so at the start. -/
theorem Lasts.head (hQ : Lasts Q) (h : Head model s₀ s) (h₀ : Q s₀) : Q s := by
  induction h with
  | start => exact h₀
  | drained _ _ ih => exact hQ.requeue ih _
  | @next s t n queue _ _ hround ih =>
    have hkept := hQ.round (hQ.requeue ih queue) model n
    rw [hround] at hkept
    exact hkept

end Limiting

/-- What merging saves can be negated in the signed range, is exact as long as what is merged and
the result are in it, and is ordered by the sizes. So no key that a candidate is sorted by leaves
the range, when it is made, when it is handed over to a survivor, or at whatever round of a pass. -/
theorem savings_negatable_and_ordered :
    (∀ a b merged, -(2 ^ 63 - 1) ≤ sizeDiff a b merged ∧ sizeDiff a b merged ≤ 2 ^ 63 - 1) ∧
    (∀ a b merged : Nat, a + b ≤ 2 ^ 63 - 1 → merged ≤ 2 ^ 63 - 1 →
      sizeDiff a b merged = (a : Int) + b - merged) ∧
    (∀ a a' b b' merged merged' : Nat, a ≤ a' → b ≤ b' → merged' ≤ merged →
      sizeDiff a b merged ≤ sizeDiff a' b' merged') ∧
    (∀ a b merged, sizeDiff a b merged = sizeDiff b a merged) ∧
    (∀ a b merged, (Candidate.ofSides a b merged).KeysFit) ∧
    (∀ c wasFirst survivor size merged,
      (Limiting.Candidate.retarget c wasFirst survivor size merged).KeysFit) ∧
    ∀ model budget p s₀ s, Limiting.start model budget p = .ok s₀ → Limiting.Head model s₀ s →
      ∀ n c, s.candidates.get? n = some c →
        c.saving = sizeDiff c.a.size c.b.size c.mergedSize ∧ c.KeysFit := by
  have hmade : ∀ a b merged, (Candidate.ofSides a b merged).Weighed := fun _ _ _ => rfl
  refine ⟨sizeDiff_bounds, fun _ _ _ => sizeDiff_exact, fun _ _ _ _ _ _ => sizeDiff_mono,
    sizeDiff_comm, fun a b merged => (hmade a b merged).keysFit,
    fun c wasFirst survivor size merged =>
      (Limiting.weighed_retarget c wasFirst survivor size merged).keysFit, ?_⟩
  intro model budget p s₀ s hstart hs n c hc
  have hweighed : c.Weighed :=
    Limiting.lasts_weighed.head hs (Limiting.weighed_start hstart) n c hc
  exact ⟨hweighed, hweighed.keysFit⟩

theorem threeChunks_savings : 110 + 120 ≤ 2 ^ 63 - 1 ∧ sizeDiff 110 120 130 = 100 ∧
    sizeDiff 110 120 (2 ^ 64 - 1) ≤ sizeDiff 110 120 130 ∧ ∃ s₀ n c,
      Limiting.start {} 2 Plan.threeChunks = .ok s₀ ∧ Limiting.Head {} s₀ s₀ ∧
      s₀.candidates.get? n = some c ∧ c.saving = sizeDiff c.a.size c.b.size c.mergedSize ∧
      c.KeysFit := by
  obtain ⟨-, hexact, hmono, -, -, -, hcandidates⟩ := savings_negatable_and_ordered
  obtain ⟨ks, s₀, -, -, hstart, hstarted⟩ :=
    Limiting.start_ok Plan.reached_threeChunks.consistent {} 2
  obtain ⟨n, c, hc, -⟩ := hstarted.complete (k := ⟨4⟩) (l := ⟨6⟩) (by decide) (by decide)
    (by decide) (by decide)
  exact ⟨by decide, hexact 110 120 130 (by decide) (by decide),
    hmono 110 110 120 120 _ 130 (by decide) (by decide) (by decide),
    s₀, n, c, hstart, .start, hc, hcandidates {} 2 Plan.threeChunks s₀ s₀ hstart .start n c hc⟩

end Bundler
