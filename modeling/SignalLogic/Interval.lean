import SignalLogic.FormationError

/-!
# Intervals

Closed windows of offsets. The upper end may be infinite, and a window always
contains its lower end.
-/

namespace SignalLogic

/-- Upper end of a window. -/
inductive Endpoint where
  | finite (offset : Offset)
  | infinite
  deriving DecidableEq

namespace Endpoint

/-- The offset of a finite end. -/
def offset? : Endpoint → Option Offset
  | .finite offset => some offset
  | .infinite => none

/-- The infinite end is written as a word. -/
def chars : Endpoint → List Char
  | .finite offset => offset.chars
  | .infinite => ['i', 'n', 'f']

/-- The same characters as a string. -/
def text (e : Endpoint) : String :=
  String.ofList e.chars

/-- Finite ends come in the order of their offsets, before the infinite end. -/
protected def le : Endpoint → Endpoint → Prop
  | _, .infinite => True
  | .infinite, .finite _ => False
  | .finite a, .finite b => a ≤ b

instance : LE Endpoint := ⟨Endpoint.le⟩

instance : DecidableLE Endpoint
  | .finite a, .finite b => inferInstanceAs (Decidable (a ≤ b))
  | .finite _, .infinite => isTrue trivial
  | .infinite, .infinite => isTrue trivial
  | .infinite, .finite _ => isFalse id

theorem finite_le_finite {a b : Offset} : finite a ≤ finite b ↔ a ≤ b := Iff.rfl

theorem le_infinite (e : Endpoint) : e ≤ infinite := by
  cases e <;> exact trivial

@[simp] theorem offset?_eq_some_iff {e : Endpoint} {b : Offset} :
    e.offset? = some b ↔ e = .finite b := by
  cases e <;> simp [offset?]

end Endpoint

/-- Closed window of offsets, never empty. -/
structure Interval where
  lower : Offset
  upper : Endpoint
  ordered : Endpoint.finite lower ≤ upper
  deriving DecidableEq

namespace Interval

/-- The window from `lower` to infinity. -/
def unbounded (lower : Offset) : Interval :=
  ⟨lower, .infinite, Endpoint.le_infinite _⟩

/-- The window that holds one offset. -/
def point (offset : Offset) : Interval :=
  ⟨offset, .finite offset, Endpoint.finite_le_finite.2 (UInt64.le_refl offset)⟩

/-- The window of all offsets up to `upper`. -/
def upTo (upper : Offset) : Interval :=
  ⟨0, .finite upper, Endpoint.finite_le_finite.2 UInt64.zero_le⟩

/-- The window between two offsets, refused when they are inverted. -/
def between (lower upper : Offset) : Except FormationError Interval :=
  if h : lower ≤ upper then .ok ⟨lower, .finite upper, Endpoint.finite_le_finite.2 h⟩
  else .error (.invertedInterval lower upper)

/-- The window with the given ends. -/
def ofEnds (lower : Offset) : Endpoint → Except FormationError Interval
  | .finite upper => between lower upper
  | .infinite => .ok (unbounded lower)

/-- A signed bound, refused when it is negative. -/
def bound (n : Int64) : Except FormationError Offset :=
  if n < 0 then .error (.negativeBound n) else .ok n.toUInt64

/-- The window between two signed bounds. The lower one is examined first, and
both before their order. -/
def betweenSigned (lower upper : Int64) : Except FormationError Interval := do
  let lower ← bound lower
  let upper ← bound upper
  between lower upper

/-- The window from a signed bound to infinity. -/
def unboundedSigned (lower : Int64) : Except FormationError Interval :=
  unbounded <$> bound lower

/-- Distance between the ends, if it is finite. -/
def width (i : Interval) : Option Offset :=
  i.upper.offset?.map (· - i.lower)

/-- The upper end is an offset. -/
def isFinite (i : Interval) : Bool :=
  i.upper.offset?.isSome

/-- A degenerate window holds one offset. -/
def isDegenerate (i : Interval) : Bool :=
  i.width = some 0

/-- Both ends belong to the window. -/
def contains (i : Interval) (offset : Offset) : Bool :=
  i.lower ≤ offset ∧ Endpoint.finite offset ≤ i.upper

/-- The ends in brackets, with a comma and no blanks between them. -/
def chars (i : Interval) : List Char :=
  '[' :: (i.lower.chars ++ ',' :: (i.upper.chars ++ [']']))

/-- The same characters as a string. -/
def text (i : Interval) : String :=
  String.ofList i.chars

/-- A window is formed exactly when it is one with these ends. -/
theorem between_eq_ok_iff {lower upper : Offset} {i : Interval} :
    between lower upper = .ok i ↔ i.lower = lower ∧ i.upper = .finite upper := by
  unfold between
  split
  case isTrue h =>
    cases i
    rw [Except.ok.injEq, Interval.mk.injEq]
    exact and_congr eq_comm eq_comm
  case isFalse h =>
    simp only [reduceCtorEq, false_iff, not_and]
    intro hl hu
    have ordered := i.ordered
    rw [hl, hu] at ordered
    exact h (Endpoint.finite_le_finite.1 ordered)

/-- Subtracting the lower end from a finite upper end never wraps. -/
theorem lower_le_of_upper {i : Interval} {upper : Offset} (h : i.upper = .finite upper) :
    i.lower ≤ upper := by
  have ordered := i.ordered
  rw [h] at ordered
  exact Endpoint.finite_le_finite.1 ordered

end Interval

end SignalLogic
