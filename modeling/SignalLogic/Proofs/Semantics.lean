import SignalLogic.Formula.Basic
import Mathlib

/-!
# Formulas over signals

A signal has a value at every instant, without a first or a last one. Values lie in
a complete lattice. Temporal operators are suprema and infima over windows; what a
single sample evaluates acts pointwise. An absent window is the one from zero to
infinity.
-/

namespace SignalLogic

universe u

/-- A value at every instant, past and future. -/
abbrev Signal (L : Type u) := ℤ → L

namespace Interval

/-- The instants that a window covers when it looks back from an instant. -/
def behind (i : Interval) (t : ℤ) : Set ℤ :=
  {s | s ≤ t - i.lower.toNat ∧ ∀ b, i.upper = .finite b → t - b.toNat ≤ s}

/-- The instants that a window covers when it looks ahead from an instant. -/
def ahead (i : Interval) (t : ℤ) : Set ℤ :=
  {s | t + i.lower.toNat ≤ s ∧ ∀ b, i.upper = .finite b → s ≤ t + b.toNat}

/-- The window of an operator, unrestricted unless one is given. -/
def ofOption (window : Option Interval) : Interval :=
  window.getD (unbounded 0)

end Interval

namespace Signal

variable {L : Type u}

/-- The signal that is `n` samples late. -/
def delay (n : ℤ) (x : Signal L) : Signal L :=
  fun t => x (t - n)

@[simp] theorem delay_apply (n : ℤ) (x : Signal L) (t : ℤ) : x.delay n t = x (t - n) := rfl

@[simp] theorem delay_zero (x : Signal L) : x.delay 0 = x := by
  ext t
  simp

/-- Delays add up. -/
theorem delay_delay (m n : ℤ) (x : Signal L) : (x.delay m).delay n = x.delay (m + n) := by
  ext t
  simp only [delay_apply]
  congr 1
  omega

variable [CompleteLattice L]

/-- The second operand at some instant ahead, and the first one until then. -/
def untilOver (i : Interval) (x y : Signal L) : Signal L :=
  fun t => ⨆ s ∈ i.ahead t, y s ⊓ ⨅ r ∈ Set.Ico t s, x r

/-- The second operand at some instant behind, and the first one since then. -/
def sinceOver (i : Interval) (x y : Signal L) : Signal L :=
  fun t => ⨆ s ∈ i.behind t, y s ⊓ ⨅ r ∈ Set.Ioc s t, x r

end Signal

/-- Supremum or infimum of a signal over a window behind or ahead. -/
def UnaryTemporal.over {L : Type u} [CompleteLattice L] (op : UnaryTemporal) (i : Interval)
    (x : Signal L) : Signal L := fun t =>
  match op with
  | .once => ⨆ s ∈ i.behind t, x s
  | .historically => ⨅ s ∈ i.behind t, x s
  | .eventually => ⨆ s ∈ i.ahead t, x s
  | .always => ⨅ s ∈ i.ahead t, x s

/-- Functions for the operators that act pointwise, and operators on signals for
edges and for `precedes` without a finite upper bound. -/
structure Interpretation (L : Type u) where
  constant : Value → L
  abs : L → L
  arithmetic : Arithmetic → L → L → L
  comparison : Comparison → L → L → L
  not : L → L
  logic : Logic → L → L → L
  edge : Edge → Signal L → Signal L
  precedes : Option Interval → Signal L → Signal L → Signal L

/-- An interpretation whose operators on signals do the same at every instant. -/
structure InvariantInterpretation (L : Type u) extends Interpretation L where
  edge_delay (op : Edge) (n : ℤ) (x : Signal L) :
    edge op (x.delay n) = (edge op x).delay n
  precedes_delay (window : Option Interval) (n : ℤ) (x y : Signal L) :
    precedes window (x.delay n) (y.delay n) = (precedes window x y).delay n

namespace Interpretation

variable {L : Type u} [CompleteLattice L] (I : Interpretation L)

/-- The operator on signals that a unary operator stands for. -/
def unary : UnaryOp → Signal L → Signal L
  | .abs _ => fun x t => I.abs (x t)
  | .not => fun x t => I.not (x t)
  | .edge op => I.edge op
  | .temporal op window => op.over (Interval.ofOption window)

/-- The operator on signals that a binary operator stands for. A `precedes` with
the finite upper bound `b` is the `until` of `b` samples ago. -/
def binary : BinaryOp → Signal L → Signal L → Signal L
  | .arithmetic op _ => fun x y t => I.arithmetic op (x t) (y t)
  | .comparison op _ => fun x y t => I.comparison op (x t) (y t)
  | .logic op => fun x y t => I.logic op (x t) (y t)
  | .temporal .since window => Signal.sinceOver (Interval.ofOption window)
  | .temporal .until window => Signal.untilOver (Interval.ofOption window)
  | .temporal .precedes window => fun x y =>
      match window.bind (·.upper.offset?) with
      | some b => (Signal.untilOver (Interval.ofOption window) x y).delay b.toNat
      | none => I.precedes window x y

/-- The signal that a formula stands for when variables stand for the signals of a
trace. -/
def meaning (trace : Variable → Signal L) : Formula → Signal L
  | .leaf (.constant value _) _ => fun _ => I.constant value
  | .leaf (.variable v _) _ => trace v
  | .unary op operand _ => I.unary op (meaning trace operand)
  | .binary op left right _ => I.binary op (meaning trace left) (meaning trace right)

end Interpretation

end SignalLogic
