import Bundler.Decimal.Places
/-!
# Sizes and durations for a reader

Sizes are given in the largest unit, up to gigabytes, in which they are at least one; durations in
milliseconds, in seconds, or in minutes and seconds.
-/
namespace Bundler

/-- The text of `amount / scale`, which is at least one in the unit, in this or a larger unit. -/
def scaledSizeText (amount scale : Nat) (unit : String) : List String → String
  | [] => Decimal.twoPlaces amount scale ++ " " ++ unit
  | larger :: rest =>
    if 1024 * scale ≤ amount then scaledSizeText amount (1024 * scale) larger rest
    else Decimal.twoPlaces amount scale ++ " " ++ unit

/-- Below 1024 bytes the count is exact, above it is rounded in a larger unit. -/
def sizeText (bytes : Nat) : String :=
  if bytes < 1024 then s!"{bytes} B"
  else scaledSizeText (Decimal.toBinary bytes) 1024 "KB" ["MB", "GB"]

structure Duration where
  seconds : Nat
  /-- The billionths of a second beyond the full seconds. -/
  nanoseconds : Nat
  deriving DecidableEq, Repr

namespace Duration

/-- The parts need not be in their ranges: full seconds go over to the seconds. -/
def ofParts (seconds nanoseconds : Nat) : Duration :=
  ⟨seconds + nanoseconds / 1000000000, nanoseconds % 1000000000⟩

def milliseconds (d : Duration) : Nat := 1000 * d.seconds + d.nanoseconds / 1000000

def inSeconds (d : Duration) : Float := Float.ofNat d.seconds + Float.ofNat d.nanoseconds / 1e9

/-- Minutes and seconds are cut, not rounded, while seconds alone have two places. -/
def text (d : Duration) : String :=
  if d.milliseconds < 1000 then s!"{d.milliseconds}ms"
  else if d.milliseconds < 60000 then
    match Decimal.Binary.ofBits d.inSeconds.toBits with
    | some b => Decimal.twoPlaces b.fraction.1 b.fraction.2 ++ "s"
    | none => s!"{d.seconds}s"
  else s!"{d.seconds / 60}m {d.seconds % 60}s"

end Duration

end Bundler
