import Bundler.Build.Error
import Bundler.Config.Basic
import Bundler.Text.Quoted
/-!
# The entry hook

Plugins tap the entry hook while they are applied. Once all are applied every tap is called with
the context and the entries, in the order in which they were tapped, up to the first failure.
-/
namespace Bundler

/-- A named call with the context and the entries, which may fail with a text. -/
structure Tap (m : Type → Type) where
  name : String
  call : String → Entries → m (Except String Unit)

/-- The taps that plugins made, in the order in which they made them. A name may be used twice. -/
structure EntryHook (m : Type → Type) where
  taps : List (Tap m) := []

namespace EntryHook

variable {m : Type → Type}

def name : String := "entryOption"

def tap (h : EntryHook m) (t : Tap m) : EntryHook m := ⟨h.taps ++ [t]⟩

def isUsed (h : EntryHook m) : Bool := !h.taps.isEmpty

def shown (h : EntryHook m) : String :=
  "EntryOptionHook \x7b taps: " ++ Text.quotedList (h.taps.map Tap.name) ++ " \x7d"

/-- Calls taps up to the first failure. -/
def callTaps [Monad m] (context : String) (entry : Entries) :
    List (Tap m) → m (Except BuildError Unit)
  | [] => pure (.ok ())
  | t :: ts => do
    match ← t.call context entry with
    | .ok () => callTaps context entry ts
    | .error text => return .error (.hook name t.name text)

/-- Calls every tap with the same context and entries. Those behind a failing one are not called. -/
def call [Monad m] (h : EntryHook m) (context : String) (entry : Entries) :
    m (Except BuildError Unit) :=
  callTaps context entry h.taps

end EntryHook

end Bundler
