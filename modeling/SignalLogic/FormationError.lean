import SignalLogic.Offset

/-!
# Formation errors

The reasons for which an interval, an operator or a formula cannot be formed.
-/

namespace SignalLogic

/-- What is wrong with the parts. -/
inductive FormationError where
  | arity (operator : String) (expected actual : Nat)
  | invertedInterval (lower upper : Offset)
  | negativeBound (bound : Int64)
  | unexpectedInterval (operator : String)
  | unknownComparison (token : String)
  | unknownRole (word : String)
  deriving DecidableEq

/-- The wording shown to a user; quoted text is written as it stands. -/
def FormationError.message : FormationError → String
  | .arity operator expected actual =>
      s!"Operator {operator} expects {expected} operand(s), got {actual}"
  | .invertedInterval lower upper =>
      s!"Invalid interval [{lower.text},{upper.text}]: lower bound exceeds upper bound"
  | .negativeBound bound => s!"Negative interval bound {bound.toInt}"
  | .unexpectedInterval operator => s!"Operator {operator} does not accept an interval"
  | .unknownComparison token => s!"Unknown comparison operator \"{token}\""
  | .unknownRole word => s!"Unknown variable role \"{word}\""

end SignalLogic
