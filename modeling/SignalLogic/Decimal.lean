import SignalLogic.Binary64

/-!
# Fixed-point decimals

A decimal is a whole number of units of a power of ten. It is written with
exactly as many digits after the point as it has places, and without a point
when it has none.
-/

namespace SignalLogic

/-- The number `units / 10 ^ places`. -/
structure Decimal where
  units : Nat
  places : Nat
  deriving DecidableEq

namespace Decimal

/-- The decimal written by the digits before and after a point. -/
def ofDigits (whole fraction : List Char) : Decimal :=
  ⟨Nat.ofDigitChars 10 (whole ++ fraction) 0, fraction.length⟩

/-- Digits of `n`, filled up with zeros on the left. -/
def padded (width n : Nat) : List Char :=
  let digits := Nat.toDigits 10 n
  List.replicate (width - digits.length) '0' ++ digits

/-- Digits before the point, and after it as many as there are places. -/
def chars (d : Decimal) : List Char :=
  let one := Nat.pow 10 d.places
  let whole := Nat.toDigits 10 (d.units / one)
  if d.places = 0 then whole else whole ++ '.' :: padded d.places (d.units % one)

/-- Multiplication by a power of ten. -/
def scale (d : Decimal) (exponent : Int) : Decimal :=
  ⟨d.units * Nat.pow 10 (exponent - d.places).toNat, (d.places - exponent).toNat⟩

/-- Code of the double nearest to a decimal. -/
def nearest (d : Decimal) : Nat :=
  Binary64.nearest d.units (Nat.pow 10 d.places)

end Decimal

end SignalLogic
