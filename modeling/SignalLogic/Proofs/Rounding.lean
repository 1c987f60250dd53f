import SignalLogic.Value
import Mathlib

/-!
# Rounding

A fraction is rounded to the magnitude nearest to it, and of two equally near ones to the
one with the even code. Distances are compared as rational numbers. Above the largest
finite magnitude the codes go on as if the exponents did: a fraction that is nearest to
one of those is rounded to the infinite magnitude, and these are the fractions from
halfway between the largest finite magnitude and `2 ^ 1024` on.
-/

namespace SignalLogic.Binary64

/-- Magnitude at a code, from the infinite one on as if the exponents had no end. -/
def magnitude (c : Nat) : ℚ :=
  units c / unitsPerOne

/-- No magnitude is nearer, and another one is as near only if the code is even. -/
structure RoundsTo (x : ℚ) (c : Nat) : Prop where
  nearest (other : Nat) : |x - magnitude c| ≤ |x - magnitude other|
  even {other : Nat} (hne : other ≠ c)
    (heq : |x - magnitude other| = |x - magnitude c|) : c % 2 = 0

theorem le_roundDiv {k num den : Nat} (hden : 0 < den) (h : k * den ≤ num) :
    k ≤ roundDiv num den := by
  have hquotient : k ≤ num / den := (Nat.le_div_iff_mul_le hden).mpr h
  simp only [roundDiv]
  split
  · exact hquotient
  · split <;> omega

theorem roundDiv_le {k num den : Nat} (hden : 0 < den) (h : num < k * den) :
    roundDiv num den ≤ k := by
  have hquotient : num / den < k := (Nat.div_lt_iff_lt_mul hden).mpr h
  simp only [roundDiv]
  split
  · omega
  · split <;> omega

theorem div_eq_quotient_add (num : Nat) {den : Nat} (hden : 0 < den) :
    (num / den : ℚ) = (num / den : Nat) + (num % den : Nat) / den := by
  have hne : (den : ℚ) ≠ 0 := by exact_mod_cast hden.ne'
  rw [eq_comm, eq_div_iff hne, add_mul, div_mul_cancel₀ _ hne]
  exact_mod_cast Nat.div_add_mod' num den

/-- A rounded quotient is off by less than a half, or by a half and even. -/
theorem roundDiv_cases (num : Nat) {den : Nat} (hden : 0 < den) :
    |(num / den : ℚ) - roundDiv num den| < 1 / 2 ∨
      |(num / den : ℚ) - roundDiv num den| = 1 / 2 ∧ roundDiv num den % 2 = 0 := by
  have hpos : (0 : ℚ) < den := by exact_mod_cast hden
  have hmod : num % den < den := Nat.mod_lt _ hden
  have hrest : (0 : ℚ) ≤ (num % den : Nat) / den := by positivity
  rw [div_eq_quotient_add num hden]
  simp only [roundDiv]
  split
  case isTrue hlow =>
    left
    have hhalf : ((num % den : Nat) / den : ℚ) < 1 / 2 := by
      rw [div_lt_iff₀ hpos]
      have hcast : (2 * (num % den : Nat) : ℚ) < den := by exact_mod_cast hlow
      linarith
    rwa [add_sub_cancel_left, abs_of_nonneg hrest]
  case isFalse hlow =>
    split
    case isTrue hhigh =>
      left
      have hhalf : (1 / 2 : ℚ) < (num % den : Nat) / den := by
        rw [lt_div_iff₀ hpos]
        have hcast : (den : ℚ) < 2 * (num % den : Nat) := by exact_mod_cast hhigh
        linarith
      have hone : ((num % den : Nat) / den : ℚ) < 1 := by
        rw [div_lt_one hpos]
        exact_mod_cast hmod
      push_cast
      rw [abs_lt]
      constructor <;> linarith
    case isFalse hhigh =>
      right
      have hhalf : ((num % den : Nat) / den : ℚ) = 1 / 2 := by
        rw [div_eq_iff hpos.ne']
        have hcast : (2 * (num % den : Nat) : ℚ) = den := by
          exact_mod_cast (by omega : 2 * (num % den) = den)
        linarith
      rw [hhalf]
      rcases Nat.mod_two_eq_zero_or_one (num / den) with heven | hodd
      · rw [heven, Nat.add_zero, add_sub_cancel_left]
        exact ⟨by norm_num, heven⟩
      · rw [hodd, Nat.cast_add, Nat.cast_one, add_sub_add_left_eq_sub]
        exact ⟨by norm_num [abs_of_neg], by omega⟩

/-- No number is nearer than a half to two whole ones. -/
theorem one_le_abs_sub_add_abs_sub (y : ℚ) {k n : Nat} (hne : k ≠ n) :
    1 ≤ |y - k| + |y - n| := by
  have hapart : (1 : ℤ) ≤ |(k : ℤ) - n| := Int.one_le_abs (by omega)
  calc (1 : ℚ) ≤ |(k : ℚ) - n| := by exact_mod_cast hapart
    _ ≤ |(k : ℚ) - y| + |y - n| := abs_sub_le _ _ _
    _ = |y - k| + |y - n| := by rw [abs_sub_comm (k : ℚ) y]

/-- No whole number is nearer to the quotient. -/
theorem roundDiv_nearest (num k : Nat) {den : Nat} (hden : 0 < den) :
    |(num / den : ℚ) - roundDiv num den| ≤ |(num / den : ℚ) - k| := by
  rcases eq_or_ne k (roundDiv num den) with rfl | hne
  · exact le_rfl
  · have hapart := one_le_abs_sub_add_abs_sub (num / den) hne
    rcases roundDiv_cases num hden with hlt | ⟨heq, -⟩ <;> linarith

/-- Another whole number is as near to the quotient only if the rounded one is even. -/
theorem roundDiv_even {num k den : Nat} (hden : 0 < den) (hne : k ≠ roundDiv num den)
    (heq : |(num / den : ℚ) - k| = |(num / den : ℚ) - roundDiv num den|) :
    roundDiv num den % 2 = 0 := by
  have hapart := one_le_abs_sub_add_abs_sub (num / den) hne
  rcases roundDiv_cases num hden with hlt | ⟨-, heven⟩
  · linarith
  · exact heven

/-- Above the first block a code is its step and a significand with a leading one. -/
theorem significand_of_le {c : Nat} (hc : block ≤ c) :
    shift c * block + (block + c % block) = c := by
  have hdiv := Nat.div_add_mod c block
  obtain ⟨k, hk⟩ : ∃ k, c / block = k + 1 := by
    have hpos : 1 ≤ c / block := (Nat.one_le_div_iff (by decide)).mpr hc
    exact ⟨c / block - 1, by omega⟩
  rw [shift, hk, Nat.add_sub_cancel]
  rw [hk, Nat.mul_comm, Nat.add_mul] at hdiv
  omega

/-- Units at a code: the significand, as many times doubled as the step says. -/
theorem units_eq (c : Nat) : units c = (c - shift c * block) * 2 ^ shift c := rfl

/-- A code is a step and a significand, and only the first step has significands without a
leading one. -/
theorem exists_significand (c : Nat) :
    ∃ q, c = shift c * block + q ∧ (shift c = 0 ∨ block ≤ q) ∧ q < 2 * block ∧
      units c = q * 2 ^ shift c := by
  rcases Nat.lt_or_ge c block with hlt | hge
  · have hshift : shift c = 0 := by rw [shift, Nat.div_eq_of_lt hlt]
    exact ⟨c, by simp [hshift], .inl hshift, by omega, by simp [units_eq, hshift]⟩
  · have hsum := significand_of_le hge
    have hmod : c % block < block := Nat.mod_lt _ (by decide)
    exact ⟨block + c % block, hsum.symm, .inr (Nat.le_add_right ..), by omega,
      by rw [units_eq, show c - shift c * block = block + c % block by omega]⟩

/-- A significand may be as large as the first one of the next step. -/
theorem units_step {step q : Nat} (hlow : step = 0 ∨ block ≤ q) (hhigh : q ≤ 2 * block) :
    units (step * block + q) = q * 2 ^ step := by
  have hblock : 0 < block := by decide
  rcases hhigh.eq_or_lt with rfl | hlt
  · have hshift : shift (step * block + 2 * block) = step + 1 := by
      rw [shift, ← Nat.add_mul, Nat.mul_div_cancel _ hblock]
      omega
    rw [units_eq, hshift, pow_succ]
    have hrest : step * block + 2 * block - (step + 1) * block = block := by
      rw [Nat.add_mul]
      omega
    rw [hrest]
    ring
  · have hshift : shift (step * block + q) = step := by
      rw [shift, Nat.add_comm, Nat.add_mul_div_right _ _ hblock]
      rcases hlow with rfl | hge
      · have hquotient : q / block < 2 := (Nat.div_lt_iff_lt_mul hblock).mpr hlt
        omega
      · have hquotient : q / block = 1 := by
          rw [Nat.div_eq_iff hblock]
          omega
        omega
    rw [units_eq, hshift, Nat.add_sub_cancel_left]

theorem units_strictMono : StrictMono units := by
  refine strictMono_nat_of_lt_succ fun c => ?_
  obtain ⟨q, hc, hlow, hhigh, hunits⟩ := exists_significand c
  have hnext : units (c + 1) = (q + 1) * 2 ^ shift c := by
    rw [← units_step (hlow.imp_right (Nat.le_add_right_of_le ·)) hhigh]
    congr 1
    omega
  rw [hunits, hnext]
  exact Nat.mul_lt_mul_of_pos_right (Nat.lt_succ_self q) (by positivity)

theorem unitsPerOne_cast : (unitsPerOne : ℚ) = 2 ^ 1074 := by
  rw [unitsPerOne, Nat.pow_eq, Nat.cast_pow, Nat.cast_ofNat]

theorem unitsPerOne_pos : (0 : ℚ) < unitsPerOne := by
  rw [unitsPerOne_cast]
  positivity

theorem magnitude_strictMono : StrictMono magnitude := by
  intro c c' h
  exact div_lt_div_of_pos_right (by exact_mod_cast units_strictMono h) unitsPerOne_pos

/-- The magnitudes from the first significand of a step on are whole numbers of steps. -/
theorem units_grid (step c : Nat) :
    (∃ k, units c = k * 2 ^ step) ∨ step ≠ 0 ∧ units c < block * 2 ^ step := by
  obtain ⟨q, -, -, hhigh, hunits⟩ := exists_significand c
  rcases Nat.lt_or_ge (shift c) step with hlt | hge
  · right
    refine ⟨by omega, ?_⟩
    calc units c = q * 2 ^ shift c := hunits
      _ < 2 * block * 2 ^ shift c := Nat.mul_lt_mul_of_pos_right hhigh (by positivity)
      _ = block * 2 ^ (shift c + 1) := by ring
      _ ≤ block * 2 ^ step :=
          Nat.mul_le_mul_left _ (Nat.pow_le_pow_right (by decide) hlt)
  · left
    refine ⟨q * 2 ^ (shift c - step), ?_⟩
    rw [hunits, Nat.mul_assoc, ← Nat.pow_add, Nat.sub_add_cancel hge]

/-- A quotient lies below the last significand of its step, and from the second step on
not below the first one. -/
theorem step_bounds {den : Nat} (hden : 0 < den) (s : Nat) :
    let step := (s / den).log2 - 52
    s < 2 * block * (den * 2 ^ step) ∧ (step = 0 ∨ block * (den * 2 ^ step) ≤ s) := by
  intro step
  have hhigh : s / den < 2 * block * 2 ^ step := by
    calc s / den < 2 ^ ((s / den).log2 + 1) := Nat.lt_log2_self
      _ ≤ 2 ^ (53 + step) := Nat.pow_le_pow_right (by decide) (by omega)
      _ = 2 * block * 2 ^ step := by rw [Nat.pow_add]; rfl
  constructor
  · rw [Nat.div_lt_iff_lt_mul hden] at hhigh
    linarith
  · rcases Nat.eq_zero_or_pos step with hzero | hpos
    · exact .inl hzero
    · right
      have hne : s / den ≠ 0 := by
        intro hzero
        simp [step, hzero] at hpos
      have hlow : block * 2 ^ step ≤ s / den := by
        calc block * 2 ^ step = 2 ^ (52 + step) := by rw [Nat.pow_add]; rfl
          _ = 2 ^ (s / den).log2 := by congr 1; omega
          _ ≤ s / den := Nat.log2_self_le hne
      rw [Nat.le_div_iff_mul_le hden] at hlow
      linarith

/-- Width of a step. -/
def stepWidth (step : Nat) : ℚ :=
  2 ^ step / unitsPerOne

theorem stepWidth_pos (step : Nat) : 0 < stepWidth step :=
  div_pos (by positivity) unitsPerOne_pos

theorem stepWidth_add (k : Nat) : stepWidth (1074 + k) = 2 ^ k := by
  rw [stepWidth, unitsPerOne_cast, pow_add, mul_div_cancel_left₀ _ (by positivity)]

theorem magnitude_of_units {c k step : Nat} (h : units c = k * 2 ^ step) :
    magnitude c = k * stepWidth step := by
  rw [magnitude, stepWidth, h]
  push_cast
  ring

theorem abs_steps_sub (y a : ℚ) (step : Nat) :
    |y * stepWidth step - a * stepWidth step| = |y - a| * stepWidth step := by
  rw [← sub_mul, abs_mul, abs_of_pos (stepWidth_pos step)]

/-- A magnitude below the first significand of the step is no nearest one: that significand
is nearer. -/
theorem lt_abs_sub_of_units_lt {y : ℚ} {q c step : Nat} (hlow : (block : ℚ) ≤ y)
    (hnear : |y - q| ≤ |y - block|) (hlt : units c < block * 2 ^ step) :
    |y - q| * stepWidth step < |y * stepWidth step - magnitude c| := by
  have hbelow : magnitude c < block * stepWidth step := by
    rw [magnitude, stepWidth, ← mul_div_assoc]
    exact div_lt_div_of_pos_right (by exact_mod_cast hlt) unitsPerOne_pos
  calc |y - q| * stepWidth step ≤ |y - block| * stepWidth step :=
        mul_le_mul_of_nonneg_right hnear (stepWidth_pos step).le
    _ = y * stepWidth step - block * stepWidth step := by
        rw [abs_of_nonneg (sub_nonneg.mpr hlow), sub_mul]
    _ < y * stepWidth step - magnitude c := by linarith
    _ ≤ |y * stepWidth step - magnitude c| := le_abs_self _

/-- Rounding to a whole number of steps is rounding to the magnitudes. -/
theorem RoundsTo.of_steps {y : ℚ} {q c step : Nat} (hlow : step = 0 ∨ (block : ℚ) ≤ y)
    (hunits : units c = q * 2 ^ step) (hnear : ∀ k : Nat, |y - q| ≤ |y - k|)
    (heven : ∀ k : Nat, k ≠ q → |y - k| = |y - q| → c % 2 = 0) :
    RoundsTo (y * stepWidth step) c := by
  have hpos := stepWidth_pos step
  constructor
  · intro other
    rw [magnitude_of_units hunits, abs_steps_sub]
    rcases units_grid step other with ⟨k, hk⟩ | ⟨hne, hlt⟩
    · rw [magnitude_of_units hk, abs_steps_sub]
      exact mul_le_mul_of_nonneg_right (hnear k) hpos.le
    · exact (lt_abs_sub_of_units_lt (hlow.resolve_left hne) (hnear block) hlt).le
  · intro other hne heq
    rw [magnitude_of_units hunits, abs_steps_sub] at heq
    rcases units_grid step other with ⟨k, hk⟩ | ⟨hstep, hlt⟩
    · have hkq : k ≠ q := by
        rintro rfl
        exact hne (units_strictMono.injective (hk.trans hunits.symm))
      rw [magnitude_of_units hk, abs_steps_sub] at heq
      exact heven k hkq (mul_right_cancel₀ hpos.ne' heq)
    · exact absurd heq
        (lt_abs_sub_of_units_lt (hlow.resolve_left hstep) (hnear block) hlt).ne'

/-- The code of a fraction is the one it rounds to, unless that is past the infinite one. -/
theorem exists_roundsTo (num : Nat) {den : Nat} (hden : 0 < den) :
    ∃ c, RoundsTo (num / den) c ∧ nearest num den = min infinity c := by
  set scaled := num * unitsPerOne with hscaled
  set step := (scaled / den).log2 - 52 with hstep
  set q := roundDiv scaled (den * 2 ^ step) with hq
  obtain ⟨hhigh, hlow⟩ := step_bounds hden scaled
  have hpos : 0 < den * 2 ^ step := by positivity
  have hvalue : (num / den : ℚ) = scaled / (den * 2 ^ step : Nat) * stepWidth step := by
    have hden' : (den : ℚ) ≠ 0 := by exact_mod_cast hden.ne'
    have hone := unitsPerOne_pos.ne'
    rw [hscaled, stepWidth]
    push_cast
    field_simp
  refine ⟨step * block + q, ?_, rfl⟩
  rw [hvalue]
  refine RoundsTo.of_steps (q := q) ?_ ?_ ?_ ?_
  · refine hlow.imp_right fun h => ?_
    rw [le_div_iff₀ (by exact_mod_cast hpos)]
    exact_mod_cast h
  · exact units_step (hlow.imp_right (le_roundDiv hpos)) (roundDiv_le hpos hhigh)
  · exact fun k => roundDiv_nearest scaled k hpos
  · intro k hne heq
    have heven : q % 2 = 0 := roundDiv_even hpos hne heq
    have hblock : step * block % 2 = 0 := by
      rw [Nat.mul_mod, show block % 2 = 0 from rfl, Nat.mul_zero]
    omega

/-- Of two codes as near as any other neither is larger: both would be even, and the code after
the smaller one nearer. -/
theorem RoundsTo.le {x : ℚ} {c c' : Nat} (h : RoundsTo x c) (h' : RoundsTo x c') : c' ≤ c := by
  by_contra hgt
  have hlt : c < c' := Nat.lt_of_not_ge hgt
  have heq : |x - magnitude c'| = |x - magnitude c| := le_antisymm (h'.nearest c) (h.nearest c')
  have heven : c % 2 = 0 := h.even hlt.ne' heq
  have heven' : c' % 2 = 0 := h'.even hlt.ne heq.symm
  have hlow : magnitude c < magnitude (c + 1) := magnitude_strictMono (Nat.lt_succ_self c)
  have hhigh : magnitude (c + 1) < magnitude c' := magnitude_strictMono (by omega)
  have hmid : x - magnitude c' = -(x - magnitude c) :=
    (abs_eq_abs.mp heq).resolve_left (by linarith)
  have hnearer : |x - magnitude (c + 1)| < x - magnitude c := by
    rw [abs_lt]
    constructor <;> linarith
  exact absurd (le_abs_self _) ((h.nearest (c + 1)).trans_lt hnearer).not_ge

theorem RoundsTo.unique {x : ℚ} {c c' : Nat} (h : RoundsTo x c) (h' : RoundsTo x c') :
    c = c' :=
  le_antisymm (h'.le h) (h.le h')

/-- From the midpoint above an odd code on, numbers round to larger codes. -/
theorem RoundsTo.lt_iff {x : ℚ} {c n : Nat} (h : RoundsTo x c) (hodd : n % 2 = 1) :
    n < c ↔ (magnitude n + magnitude (n + 1)) / 2 ≤ x := by
  have hnext : magnitude n < magnitude (n + 1) := magnitude_strictMono (Nat.lt_succ_self n)
  constructor
  · intro hlt
    have hle : magnitude (n + 1) ≤ magnitude c := magnitude_strictMono.monotone hlt
    have hnear := h.nearest n
    by_contra hbelow
    rw [not_le] at hbelow
    rw [abs_of_neg (by linarith : x - magnitude c < 0)] at hnear
    rcases abs_cases (x - magnitude n) with ⟨heq, -⟩ | ⟨heq, -⟩ <;> linarith
  · intro hmid
    by_contra hge
    rw [not_lt] at hge
    have hle : magnitude c ≤ magnitude n := magnitude_strictMono.monotone hge
    have hnear := h.nearest (n + 1)
    rw [abs_of_pos (by linarith : 0 < x - magnitude c)] at hnear
    -- The midpoint itself is as near to the next code, and the odd code gives way to it.
    have heq : |x - magnitude (n + 1)| = x - magnitude c := by
      rcases abs_cases (x - magnitude (n + 1)) with ⟨habs, -⟩ | ⟨habs, -⟩ <;> linarith
    have hsame : magnitude c = magnitude n := by
      rcases abs_cases (x - magnitude (n + 1)) with ⟨habs, -⟩ | ⟨habs, -⟩ <;> linarith
    have hcode : c = n := magnitude_strictMono.injective hsame
    have hne : n + 1 ≠ c := by omega
    have heven := h.even hne (by rw [heq, abs_of_pos (by linarith : 0 < x - magnitude c)])
    omega

theorem roundsTo_magnitude (c : Nat) : RoundsTo (magnitude c) c := by
  constructor
  · intro other
    rw [sub_self, abs_zero]
    exact abs_nonneg _
  · intro other hne heq
    rw [sub_self, abs_zero, abs_eq_zero, sub_eq_zero] at heq
    exact absurd (magnitude_strictMono.injective heq).symm hne

/-- A finite code is found exactly for the fractions that round to it. -/
theorem nearest_eq_iff {num den c : Nat} (hden : 0 < den) (hc : c < infinity) :
    nearest num den = c ↔ RoundsTo (num / den) c := by
  obtain ⟨rounded, hrounds, hnearest⟩ := exists_roundsTo num hden
  constructor
  · intro h
    have hcode : rounded = c := by omega
    exact hcode ▸ hrounds
  · intro h
    have hcode : rounded = c := hrounds.unique h
    omega

/-- The least number that is rounded to the infinite magnitude. -/
def overflow : ℚ :=
  (2 ^ 54 - 1) * 2 ^ 970

/-- It lies halfway between the largest finite magnitude and the one above it. -/
theorem overflow_eq : overflow = (magnitude (infinity - 1) + magnitude infinity) / 2 := by
  have hwidth : stepWidth 2045 = 2 ^ 970 * 2 := by
    rw [← pow_succ]
    exact stepWidth_add 971
  have hlast : units (infinity - 1) = (2 * block - 1) * 2 ^ 2045 := by
    rw [show infinity - 1 = 2045 * block + (2 * block - 1) by decide]
    exact units_step (.inr (by decide)) (Nat.sub_le ..)
  have hinfinite : units infinity = 2 * block * 2 ^ 2045 := by
    rw [show infinity = 2045 * block + 2 * block by decide]
    exact units_step (.inr (by decide)) le_rfl
  have hblock : (block : ℚ) = 2 ^ 52 := by
    rw [block, Nat.pow_eq, Nat.cast_pow, Nat.cast_ofNat]
  rw [overflow, magnitude_of_units hlast, magnitude_of_units hinfinite, hwidth,
    Nat.cast_sub (by decide), Nat.cast_mul, Nat.cast_ofNat, Nat.cast_one, hblock]
  generalize (2 : ℚ) ^ 970 = scale
  ring

/-- The infinite code is found exactly for the fractions that overflow. -/
theorem nearest_eq_infinity_iff (num : Nat) {den : Nat} (hden : 0 < den) :
    nearest num den = infinity ↔ overflow ≤ num / den := by
  obtain ⟨rounded, hrounds, hnearest⟩ := exists_roundsTo num hden
  have hpos : 0 < infinity := by decide
  have hodd : (infinity - 1) % 2 = 1 := by decide
  have hmid := hrounds.lt_iff hodd
  rw [Nat.sub_add_cancel hpos, ← overflow_eq] at hmid
  rw [← hmid]
  omega

end SignalLogic.Binary64

namespace SignalLogic.Decimal

open Binary64

/-- The number a decimal stands for. -/
def toRat (d : Decimal) : ℚ :=
  d.units / 10 ^ d.places

theorem toRat_eq (d : Decimal) : d.toRat = d.units / (Nat.pow 10 d.places : Nat) := by
  rw [toRat, Nat.pow_eq, Nat.cast_pow, Nat.cast_ofNat]

theorem nearest_eq_iff {d : Decimal} {c : Nat} (hc : c < infinity) :
    d.nearest = c ↔ RoundsTo d.toRat c := by
  rw [toRat_eq]
  exact Binary64.nearest_eq_iff (Nat.pow_pos (by decide)) hc

theorem nearest_eq_infinity_iff (d : Decimal) :
    d.nearest = infinity ↔ overflow ≤ d.toRat := by
  rw [toRat_eq]
  exact Binary64.nearest_eq_infinity_iff d.units (Nat.pow_pos (by decide))

theorem nearest_le (d : Decimal) : d.nearest ≤ infinity :=
  Nat.min_le_left ..

end SignalLogic.Decimal
