import Bundler.Build.Compiler
/-!
# The calls of plugins and taps

Whatever plugins and taps keep to themselves is a world that every call may read and change. What a
compiler does with them is a list of calls, each of which takes the world to the next one. A stage
of a build calls one after another, gives each what came of the one before it, and ends with the
first error.
-/
namespace Bundler

variable {W : Type}

/-- What two parts of a program do is what the second does where the first ends. -/
theorem run_bind_eq_iff {α β : Type} {x : StateM W α} {f : α → StateM W β} {w w' : W} {b : β} :
    (x >>= f).run w = (b, w') ↔ ∃ a w₁, x.run w = (a, w₁) ∧ (f a).run w₁ = (b, w') := by
  constructor
  · exact fun h => ⟨_, _, rfl, h⟩
  · rintro ⟨a, w₁, hx, hf⟩
    rw [StateT.run_bind, hx]
    exact hf

/-- Who is called, and what for. -/
inductive Turn (W : Type) where
  | apply (p : Plugin (StateM W)) (settings : Settings)
  | tap (t : Tap (StateM W)) (context : String) (entry : Entries)
  | prepare (f : Compilation → StateM W (Except BuildError Compilation))
  | optimize (p : Plugin (StateM W))
  | finish (p : Plugin (StateM W))

namespace Turn

/-- What a call is given by the stage that makes it. -/
def Given : Turn W → Type
  | apply .. => EntryHook (StateM W)
  | tap .. => Unit
  | prepare _ => Compilation
  | optimize _ => Compilation
  | finish _ => Compilation

/-- What a call gives back unless it fails. -/
def Value : Turn W → Type
  | apply .. => EntryHook (StateM W)
  | tap .. => Unit
  | prepare _ => Compilation
  | optimize _ => Compilation × Bool
  | finish _ => Compilation

/-- The call itself. What a tap says of its failure becomes an error that names the tap. -/
def call : (t : Turn W) → t.Given → StateM W (Except BuildError t.Value)
  | apply p settings, hook => p.apply settings hook
  | tap t context entry, () => do
    match ← t.call context entry with
    | .ok () => return .ok ()
    | .error text => return .error (.hook EntryHook.name t.name text)
  | prepare f, c => f c
  | optimize p, c => p.optimize c
  | finish p, c => p.finish c

end Turn

/-- A call that was made: what it was given and what it answered. -/
structure Call (W : Type) where
  turn : Turn W
  given : turn.Given
  answer : Except BuildError turn.Value

namespace Call

/-- Made in the world `w`, the call gives its answer and leaves the world `w'`. -/
def Leads (call : Call W) (w w' : W) : Prop :=
  (call.turn.call call.given).run w = (call.answer, w')

/-- Whenever it is made, the call adds the mark to a log that is kept in the world. -/
def Logs {κ : Type} (log : W → List κ) (mark : κ) (call : Call W) : Prop :=
  ∀ w w', call.Leads w w' → log w' = log w ++ [mark]

def error? (call : Call W) : Option BuildError :=
  match call.answer with
  | .ok _ => none
  | .error e => some e

/-- A plugin that was to change chunks answered that it did. -/
def changed : Call W → Bool
  | ⟨.optimize _, _, .ok (_, changed)⟩ => changed
  | _ => false

/-- The taps that a plugin made when it was applied. -/
def tapped : Call W → List (Tap (StateM W))
  | ⟨.apply .., hook, .ok hook'⟩ => hook'.taps.drop hook.taps.length
  | _ => []

/-- A plugin that was applied left the taps that others had made as they were. -/
def KeepsTaps : Call W → Prop
  | ⟨.apply .., hook, .ok hook'⟩ => hook.taps <+: hook'.taps
  | _ => True

end Call

/-- The calls, made one after another, take the world `w` to the world `w'`. -/
def Made : List (Call W) → W → W → Prop
  | [], w, w' => w' = w
  | call :: calls, w, w' => ∃ w₁, call.Leads w w₁ ∧ Made calls w₁ w'

theorem made_append {xs ys : List (Call W)} {w w' : W} :
    Made (xs ++ ys) w w' ↔ ∃ w₁, Made xs w w₁ ∧ Made ys w₁ w' := by
  induction xs generalizing w with
  | nil => simp [Made]
  | cons call xs ih =>
    simp only [List.cons_append, Made, ih]
    constructor
    · rintro ⟨w₁, hcall, w₂, hxs, hys⟩
      exact ⟨w₂, ⟨w₁, hcall, hxs⟩, hys⟩
    · rintro ⟨w₂, ⟨w₁, hcall, hxs⟩, hys⟩
      exact ⟨w₁, hcall, w₂, hxs, hys⟩

/-- A log that all calls keep tells in the end which calls were made, and in which order. -/
theorem Made.log {κ : Type} {log : W → List κ} {mark : Call W → κ} {calls : List (Call W)}
    {w w' : W} (h : Made calls w w') (hlogs : ∀ call ∈ calls, call.Logs log (mark call)) :
    log w' = log w ++ calls.map mark := by
  induction calls generalizing w with
  | nil =>
    cases h
    exact (List.append_nil _).symm
  | cons call calls ih =>
    obtain ⟨w₁, hcall, hcalls⟩ := h
    obtain ⟨hfirst, hlater⟩ := List.forall_mem_cons.mp hlogs
    rw [ih hcalls hlater, hfirst w w₁ hcall, List.append_assoc]
    rfl

/-! ## What a list of calls keeps to -/

/-- The calls are those that were due, in their order. If the result is an error, it is that of the
last call that was made, and none before it failed. -/
def Follows {α : Type} (due : List (Turn W)) (calls : List (Call W)) : Except BuildError α → Prop
  | .ok _ => calls.map Call.turn = due ∧ ∀ call ∈ calls, call.error? = none
  | .error e => calls.map Call.turn <+: due ∧
      ∃ before last, calls = before ++ [last] ∧ (∀ call ∈ before, call.error? = none) ∧
        last.error? = some e

namespace Follows
variable {α β : Type} {due due' : List (Turn W)} {calls calls' : List (Call W)}

theorem append {a : α} {r : Except BuildError β} (h : Follows due calls (.ok a))
    (h' : Follows due' calls' r) : Follows (due ++ due') (calls ++ calls') r := by
  obtain ⟨hdue, hgood⟩ := h
  cases r with
  | ok b =>
    obtain ⟨hdue', hgood'⟩ := h'
    constructor
    · rw [List.map_append, hdue, hdue']
    · exact List.forall_mem_append.mpr ⟨hgood, hgood'⟩
  | error e =>
    obtain ⟨hdue', before, last, rfl, hgood', hlast⟩ := h'
    constructor
    · rw [List.map_append, hdue]
      exact (List.prefix_append_right_inj due).mpr hdue'
    · refine ⟨calls ++ before, last, (List.append_assoc ..).symm, ?_, hlast⟩
      exact List.forall_mem_append.mpr ⟨hgood, hgood'⟩

/-- After an error nothing more is called, whatever was due. -/
theorem stop {e : BuildError} (h : Follows due calls (.error e : Except BuildError α)) :
    Follows (due ++ due') calls (.error e : Except BuildError β) :=
  ⟨h.1.trans (List.prefix_append ..), h.2⟩

theorem map {r : Except BuildError α} (f : α → β) (h : Follows due calls r) :
    Follows due calls (r.map f) := by
  cases r with
  | ok a => exact h
  | error e => exact h

theorem failed (t : Turn W) (given : t.Given) (e : BuildError) :
    Follows (t :: due) [⟨t, given, .error e⟩] (.error e : Except BuildError α) :=
  ⟨List.prefix_append [t] due, [], _, rfl, fun _ h => absurd h List.not_mem_nil, rfl⟩

theorem cons {r : Except BuildError α} (t : Turn W) (given : t.Given) (value : t.Value)
    (h : Follows due calls r) : Follows (t :: due) (⟨t, given, .ok value⟩ :: calls) r := by
  have hfirst : Follows [t] [⟨t, given, .ok value⟩] (.ok () : Except BuildError Unit) :=
    ⟨rfl, List.forall_mem_singleton.mpr rfl⟩
  exact hfirst.append h

end Follows

/-! ## Stages -/

/-- A stage of a build: whom it calls for each item, with which part of its state, and what becomes
of the state. -/
structure Stage (W α σ : Type) where
  turn : α → Turn W
  given : (a : α) → σ → (turn a).Given
  next : (a : α) → σ → (turn a).Value → σ

namespace Stage
variable {α σ : Type} {S : Stage W α σ} {as : List α} {s : σ} {calls : List (Call W)}
  {r : Except BuildError σ} {w w' : W}

/-- One call for each item, each with the state that the one before it left, up to the first
error. -/
inductive InTurn (S : Stage W α σ) : List α → σ → List (Call W) → Except BuildError σ → Prop
  | done (s : σ) : InTurn S [] s [] (.ok s)
  | failed (a : α) (as : List α) (s : σ) (e : BuildError) :
    InTurn S (a :: as) s [⟨S.turn a, S.given a s, .error e⟩] (.error e)
  | next {a : α} {as : List α} {s : σ} {value : (S.turn a).Value} {calls : List (Call W)}
      {r : Except BuildError σ} : InTurn S as (S.next a s value) calls r →
    InTurn S (a :: as) s (⟨S.turn a, S.given a s, .ok value⟩ :: calls) r

theorem InTurn.follows (h : S.InTurn as s calls r) : Follows (as.map S.turn) calls r := by
  induction h with
  | done s => exact ⟨rfl, fun _ h => absurd h List.not_mem_nil⟩
  | failed a as s e => exact .failed _ _ e
  | next _ ih => exact .cons _ _ _ ih

/-- What goes through the items as a stage does makes the calls of the stage in turn. -/
theorem run_iff {f : List α → σ → StateM W (Except BuildError σ)}
    (hnil : ∀ s, f [] s = pure (.ok s))
    (hcons : ∀ a as s, f (a :: as) s = do
      match ← (S.turn a).call (S.given a s) with
      | .error e => return .error e
      | .ok value => f as (S.next a s value)) :
    (f as s).run w = (r, w') ↔ ∃ calls, Made calls w w' ∧ S.InTurn as s calls r := by
  constructor
  · intro h
    induction as generalizing s w with
    | nil =>
      rw [hnil] at h
      cases h
      exact ⟨[], rfl, .done s⟩
    | cons a as ih =>
      rw [hcons] at h
      obtain ⟨answer, w₁, hcall, hrest⟩ := run_bind_eq_iff.mp h
      cases answer with
      | error e =>
        cases hrest
        exact ⟨[⟨S.turn a, S.given a s, .error e⟩], ⟨w', hcall, rfl⟩, .failed a as s e⟩
      | ok value =>
        obtain ⟨calls, hmade, hturn⟩ := ih hrest
        exact ⟨⟨S.turn a, S.given a s, .ok value⟩ :: calls, ⟨w₁, hcall, hmade⟩, .next hturn⟩
  · rintro ⟨calls, hmade, hturn⟩
    induction hturn generalizing w with
    | done s =>
      cases hmade
      rw [hnil]
      rfl
    | failed a as s e =>
      obtain ⟨w₁, hcall, hend⟩ := hmade
      cases hend
      rw [hcons]
      exact run_bind_eq_iff.mpr ⟨_, _, hcall, rfl⟩
    | next _ ih =>
      obtain ⟨w₁, hcall, hrest⟩ := hmade
      rw [hcons]
      exact run_bind_eq_iff.mpr ⟨_, _, hcall, ih hrest⟩

end Stage

end Bundler
