import SignalLogic.Formula.Name
import SignalLogic.Logged

/-!
# Horizons

The horizon of a node is the number of samples beyond the current one that decide
its value. A leaf needs none, a future operator with a finite window needs the
window's upper bound beyond its operands, and every other operator needs what its
most demanding operand needs. It is undefined for a future operator without a
finite window, for a sum that does not fit an offset, and for every node above
such a node.
-/

namespace SignalLogic

namespace Horizon

/-- The greater of two horizons, if both are defined. -/
def join : Option Offset → Option Offset → Option Offset
  | some a, some b => some (max a b)
  | _, _ => none

/-- Horizon of a future operator with the given reach over operands with the given
horizon. -/
def beyond (reach operands : Option Offset) : Option Offset := do
  Offset.add? (← reach) (← operands)

end Horizon

/-- Horizon of a unary node over an operand with the given horizon. -/
def UnaryOp.horizon (op : UnaryOp) (operand : Option Offset) : Option Offset :=
  if op.operator.isFuture then Horizon.beyond op.reach? operand else operand

/-- Horizon of a binary node over operands whose joint horizon is given. -/
def BinaryOp.horizon (op : BinaryOp) (operands : Option Offset) : Option Offset :=
  if op.operator.isFuture then Horizon.beyond op.reach? operands else operands

namespace Formula

/-- Store a horizon at the root and report it if it is undefined. -/
def settle (f : Formula) (horizon : Option Offset) : Logged Formula := do
  if horizon = none then
    Logged.emit (.horizonUndefined f.name)
  return f.withHorizon horizon

@[simp] theorem value_settle (f : Formula) (horizon : Option Offset) :
    (f.settle horizon).value = f.withHorizon horizon := by
  unfold settle
  split <;> rfl

/-- Settling reports an undefined horizon and nothing else. -/
theorem records_settle (f : Formula) (horizon : Option Offset) :
    (f.settle horizon).records =
      if horizon = none then [.horizonUndefined f.name] else [] := by
  unfold settle
  split <;> rfl

/-- Store the horizon of every node, operands first. -/
def annotate : Formula → Logged Formula
  | leaf op h => (leaf op h).settle (some 0)
  | unary op operand h => do
      let operand ← operand.annotate
      (unary op operand h).settle (op.horizon operand.horizon)
  | binary op left right h => do
      let left ← left.annotate
      let right ← right.annotate
      (binary op left right h).settle (op.horizon (Horizon.join left.horizon right.horizon))

/-- Store the horizon of every node and report the one of the root. -/
def computeHorizon (f : Formula) : Logged Formula := do
  let f ← f.annotate
  match f.horizon with
  | some horizon => Logged.emit (.horizonComputed horizon f.name)
  | none => Logged.emit (.horizonUnbounded f.name)
  return f

end Formula

end SignalLogic
