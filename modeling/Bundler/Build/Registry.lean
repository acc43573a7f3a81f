/-!
# Phases and the order of plugins

Plugins run by phase; within a phase they keep the order in which they were registered.
-/
namespace Bundler

inductive Phase where
  /-- Plugins that only look at or adjust settings. -/
  | options
  | optimize
  | emission
  deriving DecidableEq, Repr

/-- The number of a phase. Those of two phases leave room for others between them. -/
def Phase.rank : Phase → Nat
  | options => 0
  | optimize => 10
  | emission => 20

/-- Plugins with their phases, in the order of registration. -/
structure Registry (α : Type u) where
  entries : List (Phase × α) := []

namespace Registry

variable {α : Type u}

def add (r : Registry α) (phase : Phase) (a : α) : Registry α := ⟨r.entries ++ [(phase, a)]⟩

def size (r : Registry α) : Nat := r.entries.length

def isEmpty (r : Registry α) : Bool := r.entries.isEmpty

/-- What is registered, by phase. The sort is stable, so that a phase keeps the order of
registration. -/
def inOrder (r : Registry α) : List α :=
  (r.entries.mergeSort fun a b => a.1.rank ≤ b.1.rank).map Prod.snd

end Registry

end Bundler
