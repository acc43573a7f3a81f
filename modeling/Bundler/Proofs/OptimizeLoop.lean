import Bundler.Proofs.LimitRun
import Bundler.Build.Compiler
import Bundler.Files.Memory
import Mathlib
/-!
# The loop of plugins that change chunks

Where the plugin that limits the number of chunks is the only one that changes chunks, the rounds of
plugins come to an end: every round but the last leaves fewer chunks. What is left are as many
chunks as allowed, or more of which no two may be merged.
-/
namespace Bundler
open Std.Do.Internal (Ensures)

/-- The plan `q` is what passes under the limit make of the plan `p` in the end. -/
structure ChunkLimit.Settles (l : ChunkLimit) (p q : Plan) : Prop where
  below : p.chunkCount ≤ l.maxChunks → q = p
  above : l.maxChunks < p.chunkCount → l.maxChunks ≤ q.chunkCount
  stuck : l.maxChunks < p.chunkCount → l.maxChunks < q.chunkCount →
    ∀ k ∈ q.chunks.keys, ∀ i ∈ q.chunks.keys, k ≠ i → q.canMergeKeys k i = .ok false

namespace ChunkLimit
variable {l : ChunkLimit} {p q r : Plan}

theorem Passed.settles (h : l.Passed p q false) : l.Settles p q where
  below := h.below
  above := h.above
  stuck hcount _ := by
    rw [h.unchanged rfl]
    exact h.stuck hcount rfl

/-- What comes of the passes after one that merges comes of all of them. -/
theorem Passed.settles_trans (h : l.Passed p q true) (h' : l.Settles q r) : l.Settles p r := by
  have hlt := h.lowered.mp rfl
  have hcount : l.maxChunks < p.chunkCount := by
    by_contra hle
    rw [h.below (Nat.le_of_not_lt hle)] at hlt
    exact Nat.lt_irrefl _ hlt
  have hroom := h.above hcount
  rcases Nat.lt_or_eq_of_le hroom with hmore | heq
  · exact ⟨fun hle => absurd hcount (Nat.not_lt_of_le hle), fun _ => h'.above hmore,
      fun _ => h'.stuck hmore⟩
  · have hr := h'.below (Nat.le_of_eq heq.symm)
    subst hr
    exact ⟨fun hle => absurd hcount (Nat.not_lt_of_le hle), fun _ => hroom,
      fun _ hmore => absurd heq (Nat.ne_of_lt hmore)⟩

end ChunkLimit

def Admits {α : Type} (E : BuildError → Prop) (P : α → Prop) : Except BuildError α → Prop
  | .error e => E e
  | .ok a => P a

section Rounds
variable {m : Type → Type} [Monad m] [LawfulMonad m] {E : BuildError → Prop} {l : ChunkLimit}

theorem ensures_pure {α : Type} {P : α → Prop} {a : α} (h : P a) : Ensures P (pure a : m α) :=
  (Ensures.pure a).weaken fun _ heq => heq ▸ h

/-- The plugin changes no chunks and says so. It may fail, with an error that `E` admits. -/
def Plugin.SparesChunks (E : BuildError → Prop) (plugin : Plugin m) : Prop :=
  ∀ c, Ensures (Admits E fun d => d.1.plan = c.plan ∧ d.2 = false) (plugin.optimize c)

namespace Compiler

/-- The rounds that are enough if every round but the last one makes the chunks fewer. -/
def roundsFor (c : Compilation) : Nat := c.plan.chunkCount + 1

theorem optimizeRound_spared {c : Compilation} {changed : Bool} {plugins : List (Plugin m)}
    (h : ∀ plugin ∈ plugins, plugin.SparesChunks E) :
    Ensures (Admits E fun d => d.1.plan = c.plan ∧ d.2 = changed)
      (optimizeRound c changed plugins) := by
  induction plugins generalizing c changed with
  | nil => exact ensures_pure ⟨rfl, rfl⟩
  | cons plugin plugins ih =>
    apply (h plugin List.mem_cons_self c).bind
    intro r hr
    rcases r with e | ⟨d, more⟩
    · exact ensures_pure hr
    · obtain ⟨hplan, hmore⟩ := hr
      have hrest : Ensures (Admits E fun d' => d'.1.plan = d.plan ∧ d'.2 = (changed || more))
          (optimizeRound d (changed || more) plugins) :=
        ih fun q hq => h q (List.mem_cons_of_mem _ hq)
      apply hrest.weaken
      intro r hr
      rcases r with e | ⟨d', changed'⟩
      · exact hr
      · obtain ⟨hplan', hchanged⟩ := hr
        refine ⟨hplan'.trans hplan, hchanged.trans ?_⟩
        rw [show more = false from hmore, Bool.or_false]

theorem limitPass_ok (l : ChunkLimit) {c : Compilation} (h : c.plan.Consistent) :
    ∃ q changed, BuiltinPlugin.limitPass l c = .ok ({ c with plan := q }, changed) ∧
      l.Passed c.plan q changed := by
  obtain ⟨q, changed, hpass, hpassed⟩ := l.pass_ok h
  refine ⟨q, changed, ?_, hpassed⟩
  simp only [BuiltinPlugin.limitPass, hpass]

variable {before after : List (Plugin m)}

/-- A round among whose plugins just one changes chunks is a pass of that one. -/
theorem optimizeRound_limited {c : Compilation} (h : c.plan.Consistent)
    (hbefore : ∀ plugin ∈ before, plugin.SparesChunks E)
    (hafter : ∀ plugin ∈ after, plugin.SparesChunks E) :
    Ensures (Admits E fun d => l.Passed c.plan d.1.plan d.2)
      (optimizeRound c false (before ++ (BuiltinPlugin.limit l).plugin :: after)) := by
  induction before generalizing c with
  | nil =>
    obtain ⟨q, changed, hpass, hpassed⟩ := limitPass_ok l h
    have hoptimize : optimizeRound c false ((BuiltinPlugin.limit l).plugin :: after) =
        optimizeRound { c with plan := q } changed after := by
      show (pure (BuiltinPlugin.limitPass l c) >>= _) = _
      rw [pure_bind, hpass]
      rfl
    rw [List.nil_append, hoptimize]
    apply (optimizeRound_spared hafter).weaken
    intro r hr
    rcases r with e | ⟨d, changed'⟩
    · exact hr
    · obtain ⟨hplan, hchanged⟩ := hr
      show l.Passed c.plan d.plan changed'
      rw [show d.plan = q from hplan, show changed' = changed from hchanged]
      exact hpassed
  | cons plugin before ih =>
    apply (hbefore plugin List.mem_cons_self c).bind
    intro r hr
    rcases r with e | ⟨d, more⟩
    · exact ensures_pure hr
    · obtain ⟨hplan, hmore⟩ := hr
      have hplan' : d.plan = c.plan := hplan
      have hmore' : more = false := hmore
      have hrest := ih (c := d) (hplan' ▸ h) fun q hq => hbefore q (List.mem_cons_of_mem _ hq)
      rw [hplan'] at hrest
      rw [hmore']
      exact hrest

theorem optimizeRounds_limited {c : Compilation} (h : c.plan.Consistent)
    (hbefore : ∀ plugin ∈ before, plugin.SparesChunks E)
    (hafter : ∀ plugin ∈ after, plugin.SparesChunks E) {rounds : Nat}
    (hrounds : c.plan.chunkCount < rounds) :
    Ensures (Admits E fun r => ∃ d, r = some d ∧ l.Settles c.plan d.plan)
      (optimizeRounds (before ++ (BuiltinPlugin.limit l).plugin :: after) rounds c) := by
  induction rounds generalizing c with
  | zero => exact absurd hrounds (Nat.not_lt_zero _)
  | succ rounds ih =>
    apply (optimizeRound_limited (l := l) h hbefore hafter).bind
    intro r hr
    rcases r with e | ⟨d, changed⟩
    · exact ensures_pure hr
    · have hpassed : l.Passed c.plan d.plan changed := hr
      cases changed with
      | false => exact ensures_pure ⟨d, rfl, hpassed.settles⟩
      | true =>
        have hlt := hpassed.lowered.mp rfl
        apply (ih (hpassed.merges.consistent h) (by omega)).weaken
        intro r hr
        rcases r with e | r
        · exact hr
        · obtain ⟨d', hd', hsettles⟩ := hr
          exact ⟨d', hd', hpassed.settles_trans hsettles⟩

end Compiler

/-- The loop ends, with as many chunks as allowed or with more that cannot be merged any further; a
single pass tells whether it made the chunks fewer. -/
theorem Plan.Reached.optimizeRounds_settles {c : Compilation} (hp : c.plan.Reached)
    (l : ChunkLimit) {before after : List (Plugin m)}
    (hbefore : ∀ plugin ∈ before, plugin.SparesChunks E)
    (hafter : ∀ plugin ∈ after, plugin.SparesChunks E) :
    (∀ extra, Ensures (Admits E fun r => ∃ d, r = some d ∧ l.Settles c.plan d.plan)
      (Compiler.optimizeRounds (before ++ (BuiltinPlugin.limit l).plugin :: after)
        (Compiler.roundsFor c + extra) c)) ∧
      ∃ q changed, BuiltinPlugin.limitPass l c = .ok ({ c with plan := q }, changed) ∧
        (changed = true ↔ q.chunkCount < c.plan.chunkCount) ∧ (changed = false → q = c.plan) ∧
        (c.plan.chunkCount ≤ l.maxChunks → q = c.plan) := by
  have h := hp.consistent
  constructor
  · intro extra
    apply Compiler.optimizeRounds_limited h hbefore hafter
    show c.plan.chunkCount < c.plan.chunkCount + 1 + extra
    omega
  · obtain ⟨q, changed, hpass, hpassed⟩ := Compiler.limitPass_ok l h
    exact ⟨q, changed, hpass, hpassed.lowered, hpassed.unchanged, hpassed.below⟩

end Rounds

theorem Plan.threeChunks_optimizeRounds_settles :
    let c : Compilation := {
      settings := ⟨"/", .development, ∅, {}, {}, []⟩
      files := MemoryFiles.view { cwd := "/" }
      plan := threeChunks }
    let l : ChunkLimit := ⟨1, {}, by decide⟩
    c.plan.Reached ∧ (Plugin.idle (m := Id) "banner" .optimize).SparesChunks (fun _ => False) ∧
      Ensures (Admits (fun _ => False) fun r => ∃ d, r = some d ∧ l.Settles c.plan d.plan)
        (Compiler.optimizeRounds (m := Id)
          ([Plugin.idle "banner" .optimize] ++ [(BuiltinPlugin.limit l).plugin])
          (Compiler.roundsFor c + 0) c) := by
  intro c l
  have hidle : (Plugin.idle (m := Id) "banner" .optimize).SparesChunks fun _ => False :=
    fun _ => ensures_pure ⟨rfl, rfl⟩
  have hbefore : ∀ plugin ∈ [Plugin.idle (m := Id) "banner" .optimize],
      plugin.SparesChunks fun _ => False := by
    intro plugin hplugin
    rw [List.mem_singleton.mp hplugin]
    exact hidle
  have hafter : ∀ plugin ∈ ([] : List (Plugin Id)), plugin.SparesChunks fun _ => False :=
    fun _ hplugin => absurd hplugin List.not_mem_nil
  have hreached : c.plan.Reached := reached_threeChunks
  obtain ⟨hrounds, -⟩ := Plan.Reached.optimizeRounds_settles hreached l hbefore hafter
  exact ⟨hreached, hidle, hrounds 0⟩

end Bundler
