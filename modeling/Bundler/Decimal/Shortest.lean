/-!
# The shortest decimal of a binary number

A 64-bit floating point number stands for all reals that round to it. Of the decimals among them
the ones with the fewest digits are the shortest, and of these the nearest is chosen. The search
goes through the grids of one, two, … seventeen digits in exact arithmetic; on each grid only the
two neighbours of the number have to be looked at.
-/
namespace Bundler.Decimal

/-- A finite binary number `significand * 2 ^ exponent`, with its sign. -/
structure Binary where
  negative : Bool
  significand : Nat
  exponent : Int
  deriving DecidableEq, Repr

/-- The number that 64 bits hold, unless they hold an infinity or no number. -/
def Binary.ofBits (bits : UInt64) : Option Binary :=
  let n := bits.toNat
  let fraction : Nat := n % Nat.pow 2 52
  let biased : Nat := n / Nat.pow 2 52 % Nat.pow 2 11
  let negative := n / Nat.pow 2 63 == 1
  if biased = 2047 then none
  else if biased = 0 then some ⟨negative, fraction, -1074⟩
  else some ⟨negative, Nat.pow 2 52 + fraction, (biased : Int) - 1075⟩

/-- A power as a fraction: numerator and denominator, of which one is 1. -/
def power (base : Nat) (e : Int) : Nat × Nat :=
  if 0 ≤ e then (Nat.pow base e.toNat, 1) else (1, Nat.pow base (-e).toNat)

/-- The number of decimal digits of a number, one for zero. -/
def digitCount (n : Nat) : Nat := (Nat.toDigits 10 n).length

/-- The place of the first digit of the positive fraction `num / den`. -/
def leadingPlace (num den : Nat) : Int :=
  if den ≤ num then (digitCount (num / den) : Int) - 1
  else -(digitCount ((den + num - 1) / num - 1) : Int)

/-- A decimal `digits * 10 ^ exponent`. -/
structure Digits where
  digits : Nat
  exponent : Int
  deriving DecidableEq, Repr

/-- The reals that round to a binary number, as quarters of its last place: `low`, the number
itself and `high`, each times `2 ^ exponent`; the ends belong to it if `closed`. -/
structure Cell where
  low : Nat
  middle : Nat
  high : Nat
  exponent : Int
  closed : Bool

/-- The reals that round to a nonzero binary number. Below a power of two the gap is half as
wide. -/
def Binary.cell (b : Binary) : Cell :=
  let narrow := b.significand = Nat.pow 2 52 && b.exponent > -1074
  { low := 4 * b.significand - (if narrow then 1 else 2)
    middle := 4 * b.significand
    high := 4 * b.significand + 2
    exponent := b.exponent - 2
    closed := b.significand % 2 = 0 }

/-- The best decimal of a cell on the grid of multiples of `10 ^ place`, if one lies in it. -/
def Cell.onGrid (c : Cell) (place : Int) : Option Digits :=
  let (up2, down2) := power 2 c.exponent
  let (up10, down10) := power 10 place
  -- A grid point `d` is compared with a bound `x` as `d * grid` with `x * unit`.
  let unit := up2 * down10
  let grid := up10 * down2
  let inside (d : Nat) : Bool :=
    if c.closed then c.low * unit ≤ d * grid && d * grid ≤ c.high * unit
    else c.low * unit < d * grid && d * grid < c.high * unit
  let below := c.middle * unit / grid
  let above := below + 1
  let toBelow := c.middle * unit - below * grid
  let toAbove := above * grid - c.middle * unit
  match inside below, inside above with
  | false, false => none
  | true, false => some ⟨below, place⟩
  | false, true => some ⟨above, place⟩
  | true, true =>
    if toBelow < toAbove || (toBelow = toAbove && below % 2 = 0) then some ⟨below, place⟩
    else some ⟨above, place⟩

/-- Takes zeros at the end of the digits into the exponent, so many at most. -/
def Digits.stripZeros (d : Digits) : Nat → Digits
  | 0 => d
  | fuel + 1 =>
    if d.digits % 10 = 0 then Digits.stripZeros ⟨d.digits / 10, d.exponent + 1⟩ fuel else d

/-- The shortest decimal that rounds to a nonzero number, without zeros at its end. -/
def Binary.shortest (b : Binary) : Digits :=
  let c := b.cell
  let (up, down) := power 2 c.exponent
  let first := leadingPlace (c.middle * up) down
  let found := (List.range 17).findSome? fun n : Nat => c.onGrid (first - n)
  (found.getD ⟨0, 0⟩).stripZeros 20

end Bundler.Decimal
