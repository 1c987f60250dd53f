/-!
# Double-precision magnitudes

The magnitude of a finite double is a whole number of units of `2 ^ (-1074)`.
Its code, the low 63 bits of the word, grows with it: a code below `2 ^ 52`
counts units, and each further block of `2 ^ 52` codes doubles the step. Rounding
a quotient therefore rounds to a whole number of steps, and a carry into the next
block needs no care.
-/

namespace SignalLogic.Binary64

/-- Quotient rounded to the nearest whole number; a tie goes to the even one. -/
def roundDiv (num den : Nat) : Nat :=
  let quotient := num / den
  let remainder := num % den
  if 2 * remainder < den then quotient
  else if den < 2 * remainder then quotient + 1
  else quotient + quotient % 2

/-- Number of codes between two changes of the step. -/
def block : Nat := Nat.pow 2 52

/-- Code of the infinite magnitude. -/
def infinity : Nat := 2047 * block

/-- Binary logarithm of the step at a code, in units. -/
def shift (code : Nat) : Nat :=
  code / block - 1

/-- Magnitude of a finite code, in units. -/
def units (code : Nat) : Nat :=
  (code - shift code * block) * Nat.pow 2 (shift code)

/-- Units in the magnitude one. -/
def unitsPerOne : Nat := Nat.pow 2 1074

/-- Code of the magnitude nearest to `num / den`. -/
def nearest (num den : Nat) : Nat :=
  let scaled := num * unitsPerOne
  let step := (scaled / den).log2 - 52
  min infinity (step * block + roundDiv scaled (den * Nat.pow 2 step))

/-- Weight of the sign bit. -/
def signBit : Nat := Nat.pow 2 63

/-- The sign bit is set. -/
def isNegative (x : Float) : Bool :=
  signBit ≤ x.toBits.toNat

/-- Code of the magnitude of a double. -/
def code (x : Float) : Nat :=
  x.toBits.toNat % signBit

/-- The double with the given sign and magnitude. -/
def ofCode (negative : Bool) (code : Nat) : Float :=
  .ofBits (.ofNat (if negative then signBit + code else code))

/-- A double is finite when its code lies below the infinite one. -/
def isFinite (x : Float) : Bool :=
  code x < infinity

end SignalLogic.Binary64
