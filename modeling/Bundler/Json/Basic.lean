/-!
# JSON values

Values with objects that keep the order of their keys. Whole numbers of 64 bits are exact, all
other numbers are 64-bit floating point numbers, held as their bit patterns.
-/
namespace Bundler

/-- A number as it was read: two numbers of one value but of different kinds are different. -/
inductive JsonNumber where
  /-- A whole number from `-2 ^ 63` to `2 ^ 64 - 1`. -/
  | whole (n : Int)
  /-- A finite floating point number by its bits. -/
  | float (bits : UInt64)
  deriving DecidableEq, Repr, Inhabited

/-- A value. Objects may hold a key twice here, which reading never gives. -/
inductive Json where
  | null
  | bool (b : Bool)
  | number (n : JsonNumber)
  | string (s : String)
  | array (items : List Json)
  | object (fields : List (String × Json))
  deriving Inhabited, Repr

namespace Json

def nat (n : Nat) : Json := .number (.whole n)

/-- Gives a key of an object a value: in its place if it is there already, else at the end. -/
def setField (key : String) (v : Json) : List (String × Json) → List (String × Json)
  | [] => [(key, v)]
  | (k, w) :: rest => if k = key then (key, v) :: rest else (k, w) :: setField key v rest

def field? (j : Json) (key : String) : Option Json :=
  match j with
  | .object fields => fields.lookup key
  | _ => none

end Json

end Bundler
