import Bundler.Decimal.Shortest
/-!
# Decimals with two places

A quotient is rounded to hundredths; of two hundredths that are equally near the even one is taken.
-/
namespace Bundler.Decimal

/-- The whole number nearest to `num / den`; of two, the even one. -/
def roundDiv (num den : Nat) : Nat :=
  let below := num / den
  let rest := 2 * (num % den)
  if rest < den ∨ (rest = den ∧ below % 2 = 0) then below else below + 1

/-- A number of hundredths with two places after the point. -/
def hundredths (n : Nat) : String :=
  let places := n % 100
  toString (n / 100) ++ "." ++ (if places < 10 then "0" else "") ++ toString places

def twoPlaces (num den : Nat) : String := hundredths (roundDiv (100 * num) den)

/-- A number as a 64-bit floating point number holds it: with 53 significant bits. -/
def toBinary (n : Nat) : Nat :=
  let unit := Nat.pow 2 (n.log2 - 52)
  roundDiv n unit * unit

/-- The magnitude of a binary number as a fraction: numerator and denominator. -/
def Binary.fraction (b : Binary) : Nat × Nat :=
  let (up, down) := power 2 b.exponent
  (b.significand * up, down)

end Bundler.Decimal
