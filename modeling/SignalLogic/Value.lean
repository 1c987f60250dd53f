import SignalLogic.Decimal.Shortest

/-!
# Values

Signals carry double-precision values. A finite value is written by its shortest
decimal, always in positional notation. Two constants are taken to be the same
value when they are the same double or both are zeros, so a NaN is the same value
as itself and the sign of a zero does not count.
-/

namespace SignalLogic

/-- Value of a signal at one instant. -/
abbrev Value := Float

namespace Value

/-- Either of the two zeros. -/
def isZero (x : Value) : Bool :=
  Binary64.code x = 0

/-- The same double, or two zeros. -/
def same (x y : Value) : Bool :=
  x.toBits = y.toBits ∨ (isZero x ∧ isZero y)

/-- Text of a magnitude that is no NaN. -/
def magnitudeChars (code : Nat) : List Char :=
  if code < Binary64.infinity then (Decimal.shortest code).chars else ['i', 'n', 'f']

/-- A NaN is written without its sign, every other value with it. -/
def chars (x : Value) : List Char :=
  let code := Binary64.code x
  if Binary64.infinity < code then ['N', 'a', 'N']
  else if Binary64.isNegative x then '-' :: magnitudeChars code
  else magnitudeChars code

/-- The same characters as a string. -/
def text (x : Value) : String :=
  String.ofList x.chars

/-- The value nearest to a signed decimal. -/
def ofDecimal (negative : Bool) (d : Decimal) : Value :=
  Binary64.ofCode negative d.nearest

theorem same_refl (x : Value) : same x x = true := by
  simp [same]

theorem same_symm {x y : Value} (h : same x y = true) : same y x = true := by
  simp only [same, decide_eq_true_eq] at h ⊢
  exact h.imp Eq.symm And.symm

theorem same_trans {x y z : Value} (hxy : same x y = true) (hyz : same y z = true) :
    same x z = true := by
  have zero {x y : Value} (h : x.toBits = y.toBits) : isZero x = isZero y := by
    unfold isZero Binary64.code
    rw [h]
  simp only [same, decide_eq_true_eq] at hxy hyz ⊢
  rcases hxy with hxy | hxy <;> rcases hyz with hyz | hyz
  · exact .inl (hxy.trans hyz)
  · exact .inr ⟨(zero hxy).trans hyz.1, hyz.2⟩
  · exact .inr ⟨hxy.1, (zero hyz).symm.trans hxy.2⟩
  · exact .inr ⟨hxy.1, hyz.2⟩

end Value

end SignalLogic
