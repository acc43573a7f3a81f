import Bundler.Proofs.LimitRun
/-!
# Any number of passes

However many passes are made and whatever their limits, what is left is one merge of the plan at the
start.
-/
namespace Bundler

namespace ChunkLimit

def passes : List ChunkLimit → Plan → Except GraphError Plan
  | [], p => .ok p
  | l :: ls, p =>
    match l.pass p with
    | (p, .ok _) => passes ls p
    | (_, .error e) => .error e

theorem passes_ok (ls : List ChunkLimit) {p : Plan} (h : p.Consistent) :
    ∃ q, passes ls p = .ok q ∧ p.Merges q := by
  induction ls generalizing p with
  | nil => exact ⟨p, rfl, .refl⟩
  | cons l ls ih =>
    obtain ⟨q, changed, hpass, hpassed⟩ := l.pass_ok h
    obtain ⟨r, hr, hmerges⟩ := ih (hpassed.merges.consistent h)
    refine ⟨r, ?_, hpassed.merges.trans hmerges⟩
    rw [passes, hpass]
    exact hr

end ChunkLimit

/-- Passes amount to one partition of the chunks, each class merged into one of its members. -/
theorem Plan.Reached.passes_merged {p : Plan} (hp : p.Reached) (ls : List ChunkLimit) :
    ∃ q f, ChunkLimit.passes ls p = .ok q ∧ p.MergedBy f q ∧
      ∀ g m, p.Loads g m → q.Loads g m := by
  obtain ⟨q, hq, hmerges⟩ := ChunkLimit.passes_ok ls hp.consistent
  obtain ⟨f, hf⟩ := hmerges.mergedBy hp.consistent
  exact ⟨q, f, hq, hf, fun _ _ => hf.loads⟩

theorem Plan.threeChunks_passes_merged : threeChunks.Reached ∧
    ∃ q f, ChunkLimit.passes [⟨2, {}, by decide⟩, ⟨1, {}, by decide⟩] threeChunks = .ok q ∧
      threeChunks.MergedBy f q ∧ ∀ g m, threeChunks.Loads g m → q.Loads g m :=
  ⟨reached_threeChunks, Reached.passes_merged reached_threeChunks _⟩

end Bundler
