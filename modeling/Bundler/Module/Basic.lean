import Bundler.Ordered.Set
import Bundler.Size
import Bundler.Text.Path
/-!
# Modules

A module as chunking sees it: a name, a size for each kind of source it contributes, and the
modules it depends on.
-/
namespace Bundler

/-- The name of a module; that of a file is its path as text. -/
abbrev ModuleId := String

/-- What a module contributes to the output. -/
inductive SourceKind where
  | javascript | css | asset | runtime
  deriving DecidableEq, Repr

namespace SourceKind

def all : List SourceKind := [javascript, css, asset, runtime]

def word : SourceKind → String
  | javascript => "javascript"
  | css => "css"
  | asset => "asset"
  | runtime => "runtime"

def ofWord? (w : String) : Option SourceKind := all.find? (·.word = w)

theorem ofWord?_word (k : SourceKind) : ofWord? k.word = some k := by
  cases k <;> decide

/-- Guesses the kind of a file from its extension; unknown extensions count as scripts. -/
def ofPath (path : String) : SourceKind :=
  match Path.extension path with
  | none => javascript
  | some ext =>
    if ext ∈ ["css", "scss", "less"] then css
    else if ext ∈ ["png", "jpg", "jpeg", "gif", "svg", "woff", "woff2"] then asset
    else javascript

end SourceKind

/-- A size for some of the kinds of source. -/
structure SizeTable where
  javascript : Option Nat := none
  css : Option Nat := none
  asset : Option Nat := none
  runtime : Option Nat := none
  deriving DecidableEq

namespace SizeTable

/-- The size of a kind, if one has been recorded. A recorded size may be zero. -/
def get? (t : SizeTable) : SourceKind → Option Nat
  | .javascript => t.javascript
  | .css => t.css
  | .asset => t.asset
  | .runtime => t.runtime

/-- Records a size for a kind, in place of an earlier one. -/
def set (t : SizeTable) (k : SourceKind) (n : Nat) : SizeTable :=
  match k with
  | .javascript => { t with javascript := some n }
  | .css => { t with css := some n }
  | .asset => { t with asset := some n }
  | .runtime => { t with runtime := some n }

theorem get?_set (t : SizeTable) (k j : SourceKind) (n : Nat) :
    (t.set k n).get? j = if j = k then some n else t.get? j := by
  cases k <;> cases j <;> rfl

/-- The recorded sizes with their kinds. -/
def toList (t : SizeTable) : List (SourceKind × Nat) :=
  SourceKind.all.filterMap fun k => (t.get? k).map (k, ·)

end SizeTable

/-- A module by name. It may depend on itself and on modules that are nowhere. -/
structure Module where
  id : ModuleId
  sizes : SizeTable := {}
  dependencies : OrderedSet ModuleId := ∅
  deriving DecidableEq

namespace Module

/-- The size of all kinds together, cut off at the largest size. -/
def totalSize (m : Module) : Nat := Size.sum (m.sizes.toList.map Prod.snd)

def hasKind (m : Module) (k : SourceKind) : Bool := (m.sizes.get? k).isSome

def dependOn (m : Module) (id : ModuleId) : Module :=
  { m with dependencies := m.dependencies.insert id }

end Module

end Bundler
