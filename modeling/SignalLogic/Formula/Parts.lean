import SignalLogic.Formula.Basic

/-!
# Assembly of formulas

A formula can be put together from an operator, a list of operands and an optional
window. The number of operands is examined before the window.
-/

namespace SignalLogic.Formula

/-- The typed constructor of an operator, applied to as many operands as it has.
Operators without windows ignore the window. -/
def assemble? : Operator → List Formula → Option Interval → Option Formula
  | .constant value, [], _ => some (ofValue value)
  | .variable v, [], _ => some (ofVariable v)
  | .abs, [f], _ => some f.abs
  | .arithmetic op, [l, r], _ => some (arithmetic op l r)
  | .comparison op, [l, r], _ => some (comparison op l r)
  | .not, [f], _ => some f.not
  | .logic op, [l, r], _ => some (logic op l r)
  | .edge op, [f], _ => some (edge op f)
  | .unaryTemporal op, [f], window => some (unaryTemporal op window f)
  | .binaryTemporal op, [l, r], window => some (binaryTemporal op window l r)
  | _, _, _ => none

/-- Checked assembly: as many operands as the operator has, and a window only where
one is accepted. -/
def ofParts (operator : Operator) (operands : List Formula) (window : Option Interval) :
    Except FormationError Formula :=
  match assemble? operator operands window with
  | none => .error (.arity operator.label operator.arity operands.length)
  | some f =>
      if window.isSome && !operator.acceptsInterval then
        .error (.unexpectedInterval operator.label)
      else .ok f

end SignalLogic.Formula
