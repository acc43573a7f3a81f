import Bundler.Proofs.Calls
import Bundler.Proofs.PlainBuild
import Bundler.Proofs.Reordered
/-!
# The life of a compiler

A compiler calls its plugins by phase, and within a phase in the order of registration. Creating it
applies each of them once and then calls the taps that they made. A compilation lets all of them
change chunks, in whole rounds up to the first in which none did, and then lets each of them finish
it. Whatever fails first ends all this.
-/
namespace Bundler

/-! ## The order of plugins -/

section Phases
variable {m : Type → Type}

/-- The plugins phase after phase, those of a phase in the order of registration. -/
def byPhase (plugins : List (Plugin m)) : List (Plugin m) :=
  [Phase.options, .optimize, .emission].flatMap fun phase =>
    plugins.filter fun p => p.phase = phase

theorem byPhase_eq (plugins : List (Plugin m)) : byPhase plugins =
    plugins.filter (fun p => p.phase = .options) ++
      (plugins.filter (fun p => p.phase = .optimize) ++
        plugins.filter fun p => p.phase = .emission) := by
  simp [byPhase]

theorem byPhase_of_pairwise {plugins : List (Plugin m)}
    (h : plugins.Pairwise fun a b => a.phase.rank ≤ b.phase.rank) : byPhase plugins = plugins := by
  rw [byPhase_eq]
  induction plugins with
  | nil => rfl
  | cons p plugins ih =>
    obtain ⟨hfirst, hrest⟩ := List.pairwise_cons.mp h
    have hnone : ∀ phase : Phase, phase.rank < p.phase.rank →
        plugins.filter (fun q => q.phase = phase) = [] := by
      intro phase hlt
      rw [List.filter_eq_nil_iff]
      intro q hq heq
      have hle := hfirst q hq
      rw [of_decide_eq_true heq] at hle
      omega
    cases hphase : p.phase with
    | options => simpa [hphase] using ih hrest
    | optimize =>
      have hoptions := hnone .options (by rw [hphase]; decide)
      simpa [hphase, hoptions] using ih hrest
    | emission =>
      have hoptions := hnone .options (by rw [hphase]; decide)
      have hoptimize := hnone .optimize (by rw [hphase]; decide)
      simpa [hphase, hoptions, hoptimize] using ih hrest

theorem Compiler.inOrder_eq_byPhase (plugins : List (Plugin m)) :
    inOrder plugins = byPhase plugins := by
  have htrans : ∀ a b c : Plugin m, decide (a.phase.rank ≤ b.phase.rank) = true →
      decide (b.phase.rank ≤ c.phase.rank) = true →
      decide (a.phase.rank ≤ c.phase.rank) = true := by
    intro a b c hab hbc
    exact decide_eq_true (Nat.le_trans (of_decide_eq_true hab) (of_decide_eq_true hbc))
  have htotal : ∀ a b : Plugin m, (decide (a.phase.rank ≤ b.phase.rank) ||
      decide (b.phase.rank ≤ a.phase.rank)) = true := by
    intro a b
    simpa using Nat.le_total a.phase.rank b.phase.rank
  rw [inOrder_eq_mergeSort]
  have hsorted := List.pairwise_mergeSort htrans htotal plugins
  rw [← byPhase_of_pairwise (hsorted.imp of_decide_eq_true)]
  unfold byPhase
  congr 1
  funext phase
  apply filter_mergeSort htrans htotal
  apply List.pairwise_of_forall_mem_list
  intro a ha b hb
  rw [of_decide_eq_true (List.mem_filter.mp ha).2, of_decide_eq_true (List.mem_filter.mp hb).2]
  exact decide_eq_true (Nat.le_refl _)

end Phases

variable {W : Type}

/-! ## Stages of a build -/

namespace Stage

def applying (settings : Settings) : Stage W (Plugin (StateM W)) (EntryHook (StateM W)) where
  turn p := .apply p settings
  given _ hook := hook
  next _ _ hook := hook

def tapping (context : String) (entry : Entries) : Stage W (Tap (StateM W)) Unit where
  turn t := .tap t context entry
  given _ _ := ()
  next _ _ _ := ()

def optimizing : Stage W (Plugin (StateM W)) Compilation where
  turn p := .optimize p
  given _ c := c
  next _ _ value := value.1

def finishing : Stage W (Plugin (StateM W)) Compilation where
  turn p := .finish p
  given _ c := c
  next _ _ c := c

/-- If plugins only add taps, the hook holds those of each plugin after those of the ones before. -/
theorem InTurn.taps {settings : Settings} {plugins : List (Plugin (StateM W))}
    {hook hook' : EntryHook (StateM W)} {calls : List (Call W)}
    (h : (applying settings).InTurn plugins hook calls (.ok hook'))
    (hkeep : ∀ call ∈ calls, call.KeepsTaps) :
    hook'.taps = hook.taps ++ calls.flatMap Call.tapped := by
  induction plugins generalizing hook calls with
  | nil =>
    cases h
    exact (List.append_nil _).symm
  | cons p plugins ih =>
    cases h with
    | @next _ _ _ value _ _ hrest =>
      obtain ⟨hfirst, hlater⟩ := List.forall_mem_cons.mp hkeep
      obtain ⟨added, hadded⟩ : hook.taps <+: EntryHook.taps value := hfirst
      have htapped : EntryHook.taps value =
          hook.taps ++ (EntryHook.taps value).drop hook.taps.length := by
        rw [← hadded, List.drop_left]
      rw [ih hrest hlater, List.flatMap_cons, ← List.append_assoc]
      exact congrArg (· ++ _) htapped

theorem InTurn.tapped_tapping {context : String} {entry : Entries} {taps : List (Tap (StateM W))}
    {s : Unit} {calls : List (Call W)} {r : Except BuildError Unit}
    (h : (tapping context entry).InTurn taps s calls r) : calls.flatMap Call.tapped = [] := by
  induction h with
  | done s => rfl
  | failed t taps s e => rfl
  | next _ ih => exact ih

end Stage

namespace Compiler

section
variable {settings : Settings} {hook : EntryHook (StateM W)}
  {plugins : List (Plugin (StateM W))} {w w' : W}

theorem applyAll_run_iff {r : Except BuildError (EntryHook (StateM W))} :
    (applyAll settings hook plugins).run w = (r, w') ↔
      ∃ calls, Made calls w w' ∧ (Stage.applying settings).InTurn plugins hook calls r := by
  apply Stage.run_iff (f := fun plugins hook => applyAll settings hook plugins) fun _ => rfl
  intro p plugins hook
  apply congrArg (p.apply settings hook >>= ·)
  funext answer
  cases answer <;> rfl

theorem callTaps_run_iff {context : String} {entry : Entries} {taps : List (Tap (StateM W))}
    {r : Except BuildError Unit} :
    (EntryHook.callTaps context entry taps).run w = (r, w') ↔
      ∃ calls, Made calls w w' ∧ (Stage.tapping context entry).InTurn taps () calls r := by
  apply Stage.run_iff (f := fun taps _ => EntryHook.callTaps context entry taps) fun _ => rfl
  intro t taps s
  apply Eq.trans _ (bind_assoc (t.call context entry) _ _).symm
  apply congrArg (t.call context entry >>= ·)
  funext answer
  cases answer <;> rfl

theorem finishAll_run_iff {c : Compilation} {r : Except BuildError Compilation} :
    (finishAll c plugins).run w = (r, w') ↔
      ∃ calls, Made calls w w' ∧ Stage.finishing.InTurn plugins c calls r := by
  apply Stage.run_iff (f := fun plugins c => finishAll c plugins) fun _ => rfl
  intro p plugins c
  apply congrArg (p.finish c >>= ·)
  funext answer
  cases answer <;> rfl

end

/-! ## Creation -/

/-- What comes of creating a compiler whose plugins run in this order, and the calls that this
takes: each plugin is applied to the hook that the one before it left, and then each tap that is in
the hook is called. -/
inductive Creates (settings : Settings) (plugins : List (Plugin (StateM W))) (files : FileView) :
    List (Call W) → Except BuildError (Compiler (StateM W)) → Prop
  | unapplied {applied : List (Call W)} {e : BuildError} :
    (Stage.applying settings).InTurn plugins {} applied (.error e) →
    Creates settings plugins files applied (.error e)
  | applied {applied tapped : List (Call W)} {hook : EntryHook (StateM W)}
      {r : Except BuildError Unit} :
    (Stage.applying settings).InTurn plugins {} applied (.ok hook) →
    (Stage.tapping settings.context settings.entry).InTurn hook.taps () tapped r →
    Creates settings plugins files (applied ++ tapped)
      (r.map fun _ => { settings, hook, plugins, files })

theorem create_run_iff {settings : Settings} {plugins : List (Plugin (StateM W))}
    {files : FileView} {r : Except BuildError (Compiler (StateM W))} {w w' : W} :
    (create settings plugins files).run w = (r, w') ↔
      ∃ calls, Made calls w w' ∧ Creates settings (byPhase plugins) files calls r := by
  rw [← inOrder_eq_byPhase]
  constructor
  · intro h
    obtain ⟨applied?, w₁, happly, hrest⟩ := run_bind_eq_iff.mp h
    obtain ⟨applied, hmade, hturn⟩ := applyAll_run_iff.mp happly
    cases applied? with
    | error e =>
      cases hrest
      exact ⟨applied, hmade, .unapplied hturn⟩
    | ok hook =>
      obtain ⟨tapped?, w₂, htap, hend⟩ := run_bind_eq_iff.mp hrest
      obtain ⟨tapped, hmade', hturn'⟩ := callTaps_run_iff.mp htap
      have hcalls := made_append.mpr ⟨w₁, hmade, hmade'⟩
      cases tapped? with
      | error e =>
        cases hend
        exact ⟨applied ++ tapped, hcalls, .applied hturn hturn'⟩
      | ok _ =>
        cases hend
        exact ⟨applied ++ tapped, hcalls, .applied hturn hturn'⟩
  · rintro ⟨calls, hmade, hcreates⟩
    cases hcreates with
    | unapplied hturn =>
      exact run_bind_eq_iff.mpr ⟨_, _, applyAll_run_iff.mpr ⟨_, hmade, hturn⟩, rfl⟩
    | @applied _ _ _ r hturn hturn' =>
      obtain ⟨w₁, hmade, hmade'⟩ := made_append.mp hmade
      have happly := applyAll_run_iff.mpr ⟨_, hmade, hturn⟩
      have htap := callTaps_run_iff.mpr ⟨_, hmade', hturn'⟩
      refine run_bind_eq_iff.mpr ⟨_, _, happly, run_bind_eq_iff.mpr ⟨_, _, htap, ?_⟩⟩
      cases r <;> rfl

/-- Each plugin is applied once, in the order in which plugins run, and then each tap is called
once, in the order in which they were made. -/
theorem Creates.follows {settings : Settings} {plugins : List (Plugin (StateM W))}
    {files : FileView} {calls : List (Call W)} {r : Except BuildError (Compiler (StateM W))}
    (h : Creates settings plugins files calls r) : ∃ hook : EntryHook (StateM W),
      Follows (plugins.map (fun p => .apply p settings) ++
        hook.taps.map fun t => .tap t settings.context settings.entry) calls r ∧
      (∀ c, r = .ok c → c.hook = hook) ∧
      ((∀ call ∈ calls, call.KeepsTaps) → hook.taps = calls.flatMap Call.tapped) := by
  cases h with
  | unapplied hturn =>
    -- No tap is called, whichever are due.
    exact ⟨⟨calls.flatMap Call.tapped⟩, hturn.follows.stop, nofun, fun _ => rfl⟩
  | @applied applied tapped hook r hturn hturn' =>
    refine ⟨hook, hturn.follows.append (hturn'.follows.map _), ?_, ?_⟩
    · intro c hc
      cases r with
      | error e => cases hc
      | ok _ => cases hc; rfl
    · intro hkeep
      have htaps := hturn.taps (List.forall_mem_append.mp hkeep).1
      rw [List.flatMap_append, htaps, hturn'.tapped_tapping, List.append_nil]
      rfl

/-! ## Rounds -/

/-- Whole rounds of calls up to the first in which no plugin changed chunks, or up to an error:
those after which there was another round, the calls of all of them, and what comes of them. -/
inductive Loop (plugins : List (Plugin (StateM W))) :
    Compilation → List (List (Call W)) → List (Call W) → Except BuildError Compilation → Prop
  | failed {c : Compilation} {calls : List (Call W)} {e : BuildError} :
    Stage.optimizing.InTurn plugins c calls (.error e) →
    Loop plugins c [] calls (.error e)
  | settled {c d : Compilation} {calls : List (Call W)} :
    Stage.optimizing.InTurn plugins c calls (.ok d) → (∀ call ∈ calls, call.changed = false) →
    Loop plugins c [] calls (.ok d)
  | again {c d : Compilation} {round : List (Call W)} {rounds : List (List (Call W))}
      {calls : List (Call W)} {r : Except BuildError Compilation} :
    Stage.optimizing.InTurn plugins c round (.ok d) → (∃ call ∈ round, call.changed = true) →
    Loop plugins d rounds calls r →
    Loop plugins c (round :: rounds) (round ++ calls) r

/-- Rounds in each of which a plugin has changed chunks. -/
inductive Restless (plugins : List (Plugin (StateM W))) :
    Compilation → List (List (Call W)) → Prop
  | none (c : Compilation) : Restless plugins c []
  | again {c d : Compilation} {round : List (Call W)} {rounds : List (List (Call W))} :
    Stage.optimizing.InTurn plugins c round (.ok d) → (∃ call ∈ round, call.changed = true) →
    Restless plugins d rounds → Restless plugins c (round :: rounds)

theorem Loop.follows {plugins : List (Plugin (StateM W))} {c : Compilation}
    {rounds : List (List (Call W))} {calls : List (Call W)} {r : Except BuildError Compilation}
    (h : Loop plugins c rounds calls r) :
    Follows (List.replicate (rounds.length + 1) (plugins.map Turn.optimize)).flatten calls r := by
  induction h with
  | failed hturn => simpa [Stage.optimizing] using hturn.follows
  | settled hturn _ => simpa [Stage.optimizing] using hturn.follows
  | again hturn _ _ ih => exact hturn.follows.append ih

/-- A round lets each plugin change chunks once and tells whether any of them did. -/
theorem optimizeRound_run_iff {c : Compilation} {changed : Bool}
    {plugins : List (Plugin (StateM W))} {r : Except BuildError (Compilation × Bool)} {w w' : W} :
    (optimizeRound c changed plugins).run w = (r, w') ↔
      ∃ calls r₀, Made calls w w' ∧ Stage.optimizing.InTurn plugins c calls r₀ ∧
        r = r₀.map fun d => (d, changed || calls.any Call.changed) := by
  constructor
  · intro h
    induction plugins generalizing c changed w with
    | nil =>
      cases h
      exact ⟨[], .ok c, rfl, .done c, by simp [Except.map]⟩
    | cons p plugins ih =>
      obtain ⟨answer, w₁, hcall, hrest⟩ := run_bind_eq_iff.mp h
      cases answer with
      | error e =>
        cases hrest
        exact ⟨[⟨.optimize p, c, .error e⟩], .error e, ⟨w', hcall, rfl⟩,
          .failed p plugins c e, rfl⟩
      | ok value =>
        obtain ⟨calls, r₀, hmade, hturn, hr⟩ := ih hrest
        refine ⟨⟨.optimize p, c, .ok value⟩ :: calls, r₀, ⟨w₁, hcall, hmade⟩, .next hturn, ?_⟩
        rw [hr, List.any_cons, ← Bool.or_assoc]
        rfl
  · rintro ⟨calls, r₀, hmade, hturn, rfl⟩
    induction hturn generalizing changed w with
    | done c =>
      cases hmade
      simp only [List.any_nil, Bool.or_false]
      rfl
    | failed p plugins c e =>
      obtain ⟨w₁, hcall, hend⟩ := hmade
      cases hend
      exact run_bind_eq_iff.mpr ⟨_, _, hcall, rfl⟩
    | next _ ih =>
      obtain ⟨w₁, hcall, hrest⟩ := hmade
      rw [List.any_cons, ← Bool.or_assoc]
      exact run_bind_eq_iff.mpr ⟨_, _, hcall, ih hrest⟩

section
variable {plugins : List (Plugin (StateM W))} {n : Nat} {c : Compilation}
  {rounds : List (List (Call W))} {calls : List (Call W)} {w w' : W}

/-- The rounds that are allowed make the calls of the loop, or those of as many rounds as are
allowed if there was to be another after all of them. -/
theorem loop_of_optimizeRounds {r : Except BuildError (Option Compilation)}
    (h : (optimizeRounds plugins n c).run w = (r, w')) : ∃ rounds calls, Made calls w w' ∧
      ((∃ r₀, Loop plugins c rounds calls r₀ ∧ rounds.length < n ∧ r = r₀.map some) ∨
        (Restless plugins c rounds ∧ calls = rounds.flatten ∧ rounds.length = n ∧
          r = .ok none)) := by
  induction n generalizing c w with
  | zero =>
    cases h
    exact ⟨[], [], rfl, .inr ⟨.none c, rfl, rfl, rfl⟩⟩
  | succ n ih =>
    obtain ⟨round?, w₁, hround, hrest⟩ := run_bind_eq_iff.mp h
    obtain ⟨round, r₀, hmade, hturn, rfl⟩ := optimizeRound_run_iff.mp hround
    cases r₀ with
    | error e =>
      cases hrest
      exact ⟨[], round, hmade, .inl ⟨.error e, .failed hturn, Nat.succ_pos n, rfl⟩⟩
    | ok d =>
      cases hchanged : round.any Call.changed with
      | false =>
        simp only [Except.map, hchanged] at hrest
        cases hrest
        have hquiet : ∀ call ∈ round, call.changed = false := by
          simpa using List.any_eq_false.mp hchanged
        exact ⟨[], round, hmade, .inl ⟨.ok d, .settled hturn hquiet, Nat.succ_pos n, rfl⟩⟩
      | true =>
        simp only [Except.map, hchanged] at hrest
        have hsome := List.any_eq_true.mp hchanged
        obtain ⟨rounds, calls, hmade', hloop⟩ := ih hrest
        refine ⟨round :: rounds, round ++ calls, made_append.mpr ⟨w₁, hmade, hmade'⟩, ?_⟩
        rcases hloop with ⟨r₀, hloop, hlt, hr⟩ | ⟨hloop, rfl, hlen, hr⟩
        · exact .inl ⟨r₀, .again hturn hsome hloop, Nat.succ_lt_succ hlt, hr⟩
        · exact .inr ⟨.again hturn hsome hloop, rfl, congrArg (· + 1) hlen, hr⟩

theorem optimizeRounds_again {d : Compilation} {round : List (Call W)} {w₁ : W}
    (hturn : Stage.optimizing.InTurn plugins c round (.ok d))
    (hsome : ∃ call ∈ round, call.changed = true) (hmade : Made round w w₁) :
    (optimizeRounds plugins (n + 1) c).run w = (optimizeRounds plugins n d).run w₁ := by
  have hround : (optimizeRound c false plugins).run w = (.ok (d, true), w₁) := by
    rw [optimizeRound_run_iff]
    refine ⟨round, .ok d, hmade, hturn, ?_⟩
    rw [List.any_eq_true.mpr hsome]
    rfl
  rw [optimizeRounds, StateT.run_bind, hround]
  rfl

theorem optimizeRounds_of_loop {r : Except BuildError Compilation}
    (h : Loop plugins c rounds calls r) (hmade : Made calls w w') :
    (optimizeRounds plugins (rounds.length + n + 1) c).run w = (r.map some, w') := by
  induction h generalizing w with
  | @failed c calls e hturn =>
    have hround : (optimizeRound c false plugins).run w = (.error e, w') :=
      optimizeRound_run_iff.mpr ⟨calls, .error e, hmade, hturn, rfl⟩
    exact run_bind_eq_iff.mpr ⟨_, _, hround, rfl⟩
  | @settled c d calls hturn hquiet =>
    have hround : (optimizeRound c false plugins).run w = (.ok (d, false), w') := by
      rw [optimizeRound_run_iff]
      refine ⟨calls, .ok d, hmade, hturn, ?_⟩
      rw [show calls.any Call.changed = false by simpa using hquiet]
      rfl
    exact run_bind_eq_iff.mpr ⟨_, _, hround, rfl⟩
  | again hturn hsome _ ih =>
    obtain ⟨w₁, hround, hcalls⟩ := made_append.mp hmade
    rw [List.length_cons, Nat.succ_add, optimizeRounds_again hturn hsome hround]
    exact ih hcalls

theorem optimizeRounds_of_restless (h : Restless plugins c rounds)
    (hmade : Made rounds.flatten w w') :
    (optimizeRounds plugins rounds.length c).run w = (.ok none, w') := by
  induction h generalizing w with
  | none c =>
    cases hmade
    rfl
  | again hturn hsome _ ih =>
    obtain ⟨w₁, hround, hcalls⟩ := made_append.mp hmade
    rw [List.length_cons, optimizeRounds_again hturn hsome hround]
    exact ih hcalls

end

/-! ## Compilation -/

/-- What comes of a compilation that begins with `start`, and the calls that it takes: that of the
caller, those of the rounds, and if these succeed one to finish for each plugin, with the chunks
that have their ids by then. -/
inductive Compiles (c : Compiler (StateM W))
    (prepare : Compilation → StateM W (Except BuildError Compilation)) (start : Compilation) :
    List (List (Call W)) → List (Call W) → Except BuildError Compilation → Prop
  | unprepared {e : BuildError} :
    Compiles c prepare start [] [⟨.prepare prepare, start, .error e⟩] (.error e)
  | interrupted {ready : Compilation} {rounds : List (List (Call W))} {calls : List (Call W)}
      {e : BuildError} :
    Loop c.plugins ready rounds calls (.error e) →
    Compiles c prepare start rounds (⟨.prepare prepare, start, .ok ready⟩ :: calls) (.error e)
  | settled {ready d : Compilation} {rounds : List (List (Call W))} {calls finishes : List (Call W)}
      {r : Except BuildError Compilation} :
    Loop c.plugins ready rounds calls (.ok d) →
    Stage.finishing.InTurn c.plugins { d with plan := d.plan.assignIds } finishes r →
    Compiles c prepare start rounds
      (⟨.prepare prepare, start, .ok ready⟩ :: (calls ++ finishes)) r

/-- After the call of the caller there are only rounds after which there is to be another. -/
def Unsettled (c : Compiler (StateM W))
    (prepare : Compilation → StateM W (Except BuildError Compilation)) (start : Compilation)
    (rounds : List (List (Call W))) (calls : List (Call W)) : Prop :=
  ∃ ready, Restless c.plugins ready rounds ∧
    calls = ⟨.prepare prepare, start, .ok ready⟩ :: rounds.flatten

section
variable {c : Compiler (StateM W)}
  {prepare : Compilation → StateM W (Except BuildError Compilation)} {start : Compilation}
  {rounds : List (List (Call W))} {calls : List (Call W)}

/-- The plugins change chunks in whole rounds, and then each of them finishes the compilation once;
both in the order in which plugins run. -/
theorem Compiles.follows {r : Except BuildError Compilation}
    (h : Compiles c prepare start rounds calls r) :
    Follows (.prepare prepare ::
      ((List.replicate (rounds.length + 1) (c.plugins.map Turn.optimize)).flatten ++
        c.plugins.map Turn.finish)) calls r := by
  cases h with
  | unprepared => exact .failed _ _ _
  | interrupted hloop => exact .cons _ _ _ hloop.follows.stop
  | settled hloop hturn => exact .cons _ _ _ (hloop.follows.append hturn.follows)

variable {g : ModuleGraph} {n : Nat} {w w' : W}

/-- A compilation makes the calls of one that settles, or those of as many rounds as it allows. -/
theorem compiles_of_compileWith {r : Except BuildError (Option Compilation)}
    (hbegin : c.begin g = .ok start)
    (h : (c.compileWith n g prepare).run w = (r, w')) :
    ∃ rounds calls, Made calls w w' ∧
      ((∃ r₀, Compiles c prepare start rounds calls r₀ ∧ rounds.length ≤ n ∧ r = r₀.map some) ∨
        (Unsettled c prepare start rounds calls ∧ rounds.length = n + 1 ∧ r = .ok none)) := by
  unfold compileWith at h
  rw [hbegin] at h
  obtain ⟨ready?, w₁, hprepare, hrest⟩ := run_bind_eq_iff.mp h
  cases ready? with
  | error e =>
    cases hrest
    exact ⟨[], [⟨.prepare prepare, start, .error e⟩], ⟨w', hprepare, rfl⟩,
      .inl ⟨.error e, .unprepared, Nat.zero_le n, rfl⟩⟩
  | ok ready =>
    obtain ⟨done?, w₂, hrounds, hend⟩ := run_bind_eq_iff.mp hrest
    obtain ⟨rounds, calls, hmade, hloop⟩ := loop_of_optimizeRounds hrounds
    have hprepared : Made (⟨.prepare prepare, start, .ok ready⟩ :: calls) w w₂ :=
      ⟨w₁, hprepare, hmade⟩
    rcases hloop with ⟨r₀, hloop, hlt, rfl⟩ | ⟨hrestless, rfl, hlen, rfl⟩
    · cases r₀ with
      | error e =>
        cases hend
        exact ⟨rounds, _, hprepared,
          .inl ⟨.error e, .interrupted hloop, Nat.le_of_lt_succ hlt, rfl⟩⟩
      | ok d =>
        obtain ⟨r₁, w₃, hfinish, hlast⟩ := run_bind_eq_iff.mp hend
        cases hlast
        obtain ⟨finishes, hmade', hturn⟩ := finishAll_run_iff.mp hfinish
        exact ⟨rounds, _ :: (calls ++ finishes), made_append.mpr ⟨w₂, hprepared, hmade'⟩,
          .inl ⟨r₁, .settled hloop hturn, Nat.le_of_lt_succ hlt, rfl⟩⟩
    · cases hend
      exact ⟨rounds, _, hprepared, .inr ⟨⟨ready, hrestless, rfl⟩, hlen, rfl⟩⟩

theorem compileWith_of_compiles {r : Except BuildError Compilation}
    (hbegin : c.begin g = .ok start) (h : Compiles c prepare start rounds calls r)
    (hn : rounds.length ≤ n) (hmade : Made calls w w') :
    (c.compileWith n g prepare).run w = (r.map some, w') := by
  unfold compileWith
  rw [hbegin]
  obtain ⟨extra, rfl⟩ := Nat.exists_eq_add_of_le hn
  cases h with
  | unprepared =>
    obtain ⟨w₁, hprepare, hend⟩ := hmade
    cases hend
    exact run_bind_eq_iff.mpr ⟨_, _, hprepare, rfl⟩
  | interrupted hloop =>
    obtain ⟨w₁, hprepare, hcalls⟩ := hmade
    have hrounds := optimizeRounds_of_loop (n := extra) hloop hcalls
    refine run_bind_eq_iff.mpr ⟨_, _, hprepare, ?_⟩
    exact run_bind_eq_iff.mpr ⟨_, _, hrounds, rfl⟩
  | settled hloop hturn =>
    obtain ⟨w₁, hprepare, hmade⟩ := hmade
    obtain ⟨w₂, hcalls, hfinishes⟩ := made_append.mp hmade
    have hrounds := optimizeRounds_of_loop (n := extra) hloop hcalls
    have hfinish := finishAll_run_iff.mpr ⟨_, hfinishes, hturn⟩
    refine run_bind_eq_iff.mpr ⟨_, _, hprepare, run_bind_eq_iff.mpr ⟨_, _, hrounds, ?_⟩⟩
    exact run_bind_eq_iff.mpr ⟨_, _, hfinish, rfl⟩

theorem compileWith_of_unsettled (hbegin : c.begin g = .ok start)
    (h : Unsettled c prepare start rounds calls) (hn : rounds.length = n + 1)
    (hmade : Made calls w w') : (c.compileWith n g prepare).run w = (.ok none, w') := by
  unfold compileWith
  rw [hbegin]
  obtain ⟨ready, hrestless, rfl⟩ := h
  obtain ⟨w₁, hprepare, hcalls⟩ := hmade
  have hrounds := optimizeRounds_of_restless hrestless hcalls
  rw [hn] at hrounds
  refine run_bind_eq_iff.mpr ⟨_, _, hprepare, ?_⟩
  exact run_bind_eq_iff.mpr ⟨_, _, hrounds, rfl⟩

theorem compileWith_run_iff {r : Except BuildError (Option Compilation)}
    (hbegin : c.begin g = .ok start) :
    (c.compileWith n g prepare).run w = (r, w') ↔ ∃ rounds calls, Made calls w w' ∧
      ((∃ r₀, Compiles c prepare start rounds calls r₀ ∧ rounds.length ≤ n ∧ r = r₀.map some) ∨
        (Unsettled c prepare start rounds calls ∧ rounds.length = n + 1 ∧ r = .ok none)) := by
  constructor
  · exact compiles_of_compileWith hbegin
  · rintro ⟨rounds, calls, hmade, ⟨r₀, hcompiles, hle, rfl⟩ | ⟨hunsettled, hlen, rfl⟩⟩
    · exact compileWith_of_compiles hbegin hcompiles hle hmade
    · exact compileWith_of_unsettled hbegin hunsettled hlen hmade

theorem eq_of_map_some {r r₀ : Except BuildError Compilation} (h : r.map some = r₀.map some) :
    r = r₀ := by
  cases r <;> cases r₀ <;> cases h <;> rfl

/-- A compilation comes to an end, given rounds enough, just if its calls do. -/
theorem compileWith_ends_iff {r : Except BuildError Compilation} (hbegin : c.begin g = .ok start) :
    (∃ n, (c.compileWith n g prepare).run w = (r.map some, w')) ↔
      ∃ rounds calls, Made calls w w' ∧ Compiles c prepare start rounds calls r := by
  constructor
  · intro h
    obtain ⟨n, hn⟩ := h
    obtain ⟨rounds, calls, hmade, hends⟩ := compiles_of_compileWith hbegin hn
    rcases hends with ⟨r₀, hcompiles, -, heq⟩ | ⟨-, -, hnone⟩
    · exact ⟨rounds, calls, hmade, eq_of_map_some heq ▸ hcompiles⟩
    · cases r <;> cases hnone
  · intro h
    obtain ⟨rounds, calls, hmade, hcompiles⟩ := h
    exact ⟨rounds.length, compileWith_of_compiles hbegin hcompiles (Nat.le_refl _) hmade⟩

/-- What has come of a compilation does not change if more rounds are allowed. -/
theorem compileWith_mono {r : Except BuildError Compilation} (hbegin : c.begin g = .ok start)
    (h : (c.compileWith n g prepare).run w = (r.map some, w')) (more : Nat) :
    (c.compileWith (n + more) g prepare).run w = (r.map some, w') := by
  obtain ⟨rounds, calls, hmade, hends⟩ := compiles_of_compileWith hbegin h
  rcases hends with ⟨r₀, hcompiles, hle, heq⟩ | ⟨-, -, hnone⟩
  · rw [heq]
    exact compileWith_of_compiles hbegin hcompiles (by omega) hmade
  · cases r <;> cases hnone

end

/-- Creating a compiler is a run of calls: those of its plugins and of their taps. -/
structure CreatedInTurn (settings : Settings) (plugins : List (Plugin (StateM W)))
    (files : FileView) : Prop where
  traced : ∀ w r w', (create settings plugins files).run w = (r, w') ↔
    ∃ calls, Made calls w w' ∧ Creates settings (byPhase plugins) files calls r
  /-- If plugins only add taps, those that are due are the ones that each of them added. -/
  followed : ∀ calls r, Creates settings (byPhase plugins) files calls r →
    ∃ hook : EntryHook (StateM W),
      Follows ((byPhase plugins).map (fun p => .apply p settings) ++
        hook.taps.map fun t => .tap t settings.context settings.entry) calls r ∧
      (∀ c, r = .ok c → c.hook = hook) ∧
      ((∀ call ∈ calls, call.KeepsTaps) → hook.taps = calls.flatMap Call.tapped)

/-- A compilation that begins with `start` is a run of calls. It goes on for as many rounds as it
takes: one that settles does so once enough of them are allowed, and then for good. -/
structure CompiledInTurn (c : Compiler (StateM W)) (g : ModuleGraph)
    (prepare : Compilation → StateM W (Except BuildError Compilation)) (start : Compilation) :
    Prop where
  begun : c.begin g = .ok start
  traced : ∀ (r : Except BuildError Compilation) w w',
    (∃ n, (c.compileWith n g prepare).run w = (r.map some, w')) ↔
      ∃ rounds calls, Made calls w w' ∧ Compiles c prepare start rounds calls r
  lasting : ∀ (r : Except BuildError Compilation) n w w',
    (c.compileWith n g prepare).run w = (r.map some, w') → ∀ more,
      (c.compileWith (n + more) g prepare).run w = (r.map some, w')
  /-- What is there after any number of rounds. -/
  counted : ∀ n w r w', (c.compileWith n g prepare).run w = (r, w') ↔
    ∃ rounds calls, Made calls w w' ∧
      ((∃ r₀, Compiles c prepare start rounds calls r₀ ∧ rounds.length ≤ n ∧ r = r₀.map some) ∨
        (Unsettled c prepare start rounds calls ∧ rounds.length = n + 1 ∧ r = .ok none))
  followed : ∀ rounds calls r, Compiles c prepare start rounds calls r →
    Follows (.prepare prepare ::
      ((List.replicate (rounds.length + 1) (c.plugins.map Turn.optimize)).flatten ++
        c.plugins.map Turn.finish)) calls r

/-- Creating a compiler applies its plugins and calls their taps, and a compilation calls the
plugins in whole rounds and then to finish it, all in the order of phases. The first error ends
this and is the result. A log that all the calls keep has a mark for each of them, and no other. -/
theorem lifecycle (settings : Settings) (plugins : List (Plugin (StateM W))) (files : FileView) :
    CreatedInTurn settings plugins files ∧
      (∀ (c : Compiler (StateM W)) (g : ModuleGraph)
        (prepare : Compilation → StateM W (Except BuildError Compilation)),
        ∃ start, CompiledInTurn c g prepare start) ∧
      ∀ (κ : Type) (log : W → List κ) (mark : Call W → κ) calls w w', Made calls w w' →
        (∀ call ∈ calls, call.Logs log (mark call)) → log w' = log w ++ calls.map mark := by
  refine ⟨⟨fun _ _ _ => create_run_iff, fun _ _ h => h.follows⟩, ?_, ?_⟩
  · intro c g prepare
    obtain ⟨p, hbegin, -⟩ := c.begin_ok g
    exact ⟨_, {
      begun := hbegin
      traced := fun _ _ _ => compileWith_ends_iff hbegin
      lasting := fun _ _ _ _ h => compileWith_mono hbegin h
      counted := fun _ _ _ _ => compileWith_run_iff hbegin
      followed := fun _ _ _ h => h.follows }⟩
  · exact fun _ _ _ _ _ _ => Made.log

example :
    let recorder (name : String) (phase : Phase) : Plugin (StateM (List String)) := {
      name, phase
      apply := fun _ hook log =>
        (.ok (hook.tap ⟨name, fun _ _ log => (.ok (), log ++ ["entryOption:" ++ name])⟩),
          log ++ ["apply:" ++ name])
      optimize := fun c log => (.ok (c, false), log ++ ["optimize:" ++ name])
      finish := fun c log => (.ok c, log ++ ["assets:" ++ name]) }
    let build : StateM (List String) Unit := do
      let plugins := [recorder "emit" .emission, recorder "opt" .optimize]
      match ← create ⟨"/", .development, ∅, {}, {}, []⟩ plugins (MemoryFiles.view { cwd := "/" }) with
      | .ok c => discard (c.compile 0)
      | .error _ => pure ()
    (build.run []).2 = ["apply:opt", "apply:emit", "entryOption:opt", "entryOption:emit",
      "optimize:opt", "optimize:emit", "assets:opt", "assets:emit"] := by cbv

end Compiler

end Bundler
