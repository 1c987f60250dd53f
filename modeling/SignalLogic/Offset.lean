/-!
# Offsets

Windows and horizons count samples in 64-bit words. The two operations that the
analyses need never wrap: a difference stops at zero, and a sum that does not
fit is absent.
-/

namespace SignalLogic

/-- Number of samples between two instants. -/
abbrev Offset := UInt64

namespace Offset

/-- Difference that stops at zero. -/
def monus (a b : Offset) : Offset :=
  if a < b then 0 else a - b

/-- Sum, absent when it exceeds the greatest offset. -/
def add? (a b : Offset) : Option Offset :=
  if a.toNat + b.toNat < UInt64.size then some (a + b) else none

/-- The offset with the given value, if there is one. -/
def ofNat? (n : Nat) : Option Offset :=
  if h : n < UInt64.size then some (UInt64.ofNatLT n h) else none

/-- Decimal digits, most significant first. -/
def chars (n : Offset) : List Char :=
  Nat.toDigits 10 n.toNat

/-- The same digits as a string. -/
def text (n : Offset) : String :=
  String.ofList n.chars

/-- The difference is the one of natural numbers. -/
@[simp] theorem toNat_monus (a b : Offset) : (monus a b).toNat = a.toNat - b.toNat := by
  unfold monus
  split
  case isTrue h =>
    have : a.toNat < b.toNat := UInt64.lt_iff_toNat_lt.1 h
    have zero : (0 : Offset).toNat = 0 := rfl
    omega
  case isFalse h =>
    exact UInt64.toNat_sub_of_le _ _ (UInt64.not_lt.1 h)

/-- A sum is present exactly when it is the one of natural numbers. -/
theorem add?_eq_some_iff {a b c : Offset} :
    add? a b = some c ↔ a.toNat + b.toNat = c.toNat := by
  unfold add?
  split
  case isTrue h =>
    rw [Option.some_inj, ← UInt64.toNat_inj, UInt64.toNat_add, Nat.mod_eq_of_lt h]
  case isFalse h =>
    have := c.toNat_lt_size
    simp
    omega

/-- A number is an offset exactly when it is the value of one. -/
theorem ofNat?_eq_some_iff {n : Nat} {a : Offset} : ofNat? n = some a ↔ n = a.toNat := by
  unfold ofNat?
  split
  case isTrue h =>
    rw [Option.some_inj, ← UInt64.toNat_inj, UInt64.toNat_ofNatLT]
  case isFalse h =>
    have := a.toNat_lt_size
    simp
    omega

end Offset

end SignalLogic
