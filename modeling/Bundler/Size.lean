/-!
# Byte sizes

Sizes are counted in bytes and held in 64 bits. Arithmetic on them never wraps: a result above the
largest size is that largest size.
-/
namespace Bundler.Size

def largest : Nat := Nat.pow 2 64 - 1

def cap (n : Nat) : Nat := min n largest

def add (a b : Nat) : Nat := cap (a + b)

def mul (a b : Nat) : Nat := cap (a * b)

/-- The sum of a list of sizes, capped after each addition. -/
def sum (sizes : List Nat) : Nat := sizes.foldl add 0

def largestSigned : Int := Int.pow 2 63 - 1

/-- The smallest signed number of 64 bits, whose negation is above the largest. -/
def smallestSigned : Int := -Int.pow 2 63

/-- A number cut off at both ends of the signed 64-bit range. -/
def capSigned (n : Int) : Int := max smallestSigned (min n largestSigned)

/-- A size as a signed number, cut off at the largest one. -/
def signed (n : Nat) : Int := min (n : Int) largestSigned

end Bundler.Size
