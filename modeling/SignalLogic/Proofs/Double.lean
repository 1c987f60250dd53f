import SignalLogic.Proofs.Rounding

/-!
# Doubles

A double is its word, and its sign and code are those it was made of. So a decimal is read
as the nearest finite value, or as the infinite one where it overflows. A finite magnitude
is the nearest one to itself: the shortest decimal of a double is read back as the double,
whether the search for it ends early or on the finest grid.
-/

namespace SignalLogic.Binary64

/-- Sign and code make up the double. -/
theorem ofCode_code (x : Float) : ofCode (isNegative x) (code x) = x := by
  have hlt : x.toBits.toNat < 2 ^ 64 := x.toBits.toNat_lt
  have hword : (if isNegative x then signBit + code x else code x) = x.toBits.toNat := by
    have hbit : signBit = 2 ^ 63 := rfl
    have hmod : x.toBits.toNat % signBit = x.toBits.toNat % 2 ^ 63 := rfl
    rw [isNegative, code]
    by_cases hsign : signBit ≤ x.toBits.toNat
    · rw [decide_eq_true hsign, if_pos rfl]
      omega
    · rw [decide_eq_false hsign, if_neg Bool.false_ne_true]
      omega
  rw [ofCode, hword, UInt64.ofNat_toNat, Float.ofBits_toBits]

/-- A word that is no NaN is kept by the double made of it. -/
theorem toBits_ofBits {word : UInt64} (h : word.toNat % signBit ≤ infinity) :
    (Float.ofBits word).toBits = word := by
  have hlow : word.toNat % 2 ^ 63 ≤ 2047 * 2 ^ 52 := h
  have hvalid : Float.Model.Format.binary64.Valid word.toBitVec := by
    constructor
    intro hexponent hmantissa
    refine absurd (BitVec.eq_of_toNat_eq ?_) hmantissa
    have hones := congrArg BitVec.toNat hexponent
    simp [Float.Model.UnpackedFloat.unpackExponent, Float.Model.UnpackedFloat.unpackMantissa,
      BitVec.extractLsb, Nat.shiftRight_eq_div_pow] at hones ⊢
    omega
  exact congrArg UInt64.ofBitVec (Float.Model.UnpackedFloat.pack_unpack_of_valid hvalid)

/-- The sign bit lies above every code of a magnitude that is no NaN. -/
theorem word_mod_signBit {c : Nat} (negative : Bool) (hc : c ≤ infinity) :
    (if negative then signBit + c else c) % signBit = c := by
  have hlt : c < signBit := hc.trans_lt (by decide)
  split
  · rw [Nat.add_mod_left, Nat.mod_eq_of_lt hlt]
  · exact Nat.mod_eq_of_lt hlt

theorem toNat_toBits_ofCode {c : Nat} (negative : Bool) (hc : c ≤ infinity) :
    (ofCode negative c).toBits.toNat = if negative then signBit + c else c := by
  have hword : (UInt64.ofNat (if negative then signBit + c else c)).toNat =
      if negative then signBit + c else c := by
    have hlt : signBit + infinity < UInt64.size := by decide
    apply UInt64.toNat_ofNat_of_lt'
    split <;> omega
  rw [ofCode, toBits_ofBits, hword]
  rw [hword, word_mod_signBit negative hc]
  exact hc

/-- Sign and code are kept by the double made of them, unless it is a NaN. -/
theorem code_ofCode {c : Nat} (negative : Bool) (hc : c ≤ infinity) :
    code (ofCode negative c) = c := by
  rw [code, toNat_toBits_ofCode negative hc, word_mod_signBit negative hc]

theorem isNegative_ofCode {c : Nat} (negative : Bool) (hc : c ≤ infinity) :
    isNegative (ofCode negative c) = negative := by
  have hlt : c < signBit := hc.trans_lt (by decide)
  rw [isNegative, toNat_toBits_ofCode negative hc]
  cases negative with
  | true => simp
  | false => simpa using hlt

/-- A fraction that is a finite magnitude is rounded to its code. -/
theorem nearest_eq {num den c : Nat} (hden : 0 < den) (hc : c < infinity)
    (h : num * unitsPerOne = units c * den) : nearest num den = c := by
  have hmagnitude : (num / den : ℚ) = magnitude c := by
    have hden' : (den : ℚ) ≠ 0 := by exact_mod_cast hden.ne'
    rw [magnitude, div_eq_div_iff hden' unitsPerOne_pos.ne']
    exact_mod_cast h
  rw [nearest_eq_iff hden hc, hmagnitude]
  exact roundsTo_magnitude c

end SignalLogic.Binary64

namespace SignalLogic

namespace Decimal

open Binary64

theorem nearest_of_units {units places c : Nat} (hc : c < infinity)
    (h : units * unitsPerOne = Binary64.units c * Nat.pow 10 places) :
    nearest ⟨units, places⟩ = c :=
  nearest_eq (Nat.pow_pos (by decide)) hc h

/-- The exact magnitude is on the finest grid. -/
theorem nearest_exact {c : Nat} (hc : c < infinity) : (onGrid 0 (exactUnits c)).nearest = c := by
  have hten (n : Nat) : Nat.pow 5 n * Nat.pow 2 n = Nat.pow 10 n := by
    simp only [Nat.pow_eq, ← Nat.mul_pow]
  have hpoint : onGrid 0 (exactUnits c) = ⟨exactUnits c, finest⟩ := by
    rw [onGrid, Nat.zero_sub, Nat.pow_eq, Nat.pow_zero, Nat.mul_one, Nat.sub_zero]
  have hunits : exactUnits c * unitsPerOne = Binary64.units c * Nat.pow 10 finest := by
    unfold exactUnits unitsPerOne
    rw [show 1074 = finest from rfl, Nat.mul_assoc, hten]
  rw [hpoint]
  exact nearest_of_units hc hunits

theorem nearest_search {c : Nat} (hc : c < infinity) (grid : Nat) :
    (search c (exactUnits c) grid).nearest = c := by
  induction grid with
  | zero => exact nearest_exact hc
  | succ grid ih =>
      rw [search]
      cases hd : neighbour? c (exactUnits c) (grid + 1) with
      | none => exact ih
      | some d => exact nearest_of_neighbour? hd

/-- The shortest decimal of a magnitude is read back as the magnitude. -/
theorem nearest_shortest {c : Nat} (hc : c < infinity) : (shortest c).nearest = c := by
  unfold shortest
  split
  case isTrue h =>
    subst h
    exact nearest_of_units hc (by simp [Binary64.units])
  case isFalse => exact nearest_search hc _

end Decimal

namespace Value

open Binary64

theorem code_ofDecimal (negative : Bool) (d : Decimal) : code (ofDecimal negative d) = d.nearest :=
  code_ofCode negative d.nearest_le

theorem isNegative_ofDecimal (negative : Bool) (d : Decimal) :
    isNegative (ofDecimal negative d) = negative :=
  isNegative_ofCode negative d.nearest_le

theorem isFinite_ofDecimal_iff {negative : Bool} {d : Decimal} :
    isFinite (ofDecimal negative d) = true ↔ d.toRat < overflow := by
  have hle := d.nearest_le
  rw [isFinite, code_ofDecimal, decide_eq_true_eq]
  calc d.nearest < infinity ↔ ¬ d.nearest = infinity := by omega
    _ ↔ ¬ overflow ≤ d.toRat := not_congr d.nearest_eq_infinity_iff
    _ ↔ d.toRat < overflow := not_le

/-- A decimal is read with its sign: as the nearest finite value unless it overflows, of two
equally near ones as the even one, and else as the infinite value. -/
theorem ofDecimal_rounds (negative : Bool) (d : Decimal) :
    isNegative (ofDecimal negative d) = negative ∧
      (d.toRat < overflow → RoundsTo d.toRat (code (ofDecimal negative d))) ∧
      (overflow ≤ d.toRat → code (ofDecimal negative d) = infinity) := by
  rw [code_ofDecimal]
  refine ⟨isNegative_ofDecimal negative d, fun hbelow => ?_, d.nearest_eq_infinity_iff.mpr⟩
  have hfinite : d.nearest < infinity := by
    rw [← code_ofDecimal negative]
    exact of_decide_eq_true (isFinite_ofDecimal_iff.mpr hbelow)
  exact (Decimal.nearest_eq_iff hfinite).mp rfl

end Value

end SignalLogic
