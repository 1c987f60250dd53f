import SignalLogic.Value
import SignalLogic.Variable

/-!
# Operators

The operators of signal temporal logic, by family. Each has one token, which is
also its label.
-/

namespace SignalLogic

/-- Arithmetic on two values. -/
inductive Arithmetic where
  | addition
  | subtraction
  | multiplication
  | division
  deriving DecidableEq

/-- Token between the operands. -/
def Arithmetic.token : Arithmetic → String
  | .addition => "+"
  | .subtraction => "-"
  | .multiplication => "*"
  | .division => "/"

/-- Comparisons of two values. -/
inductive Comparison where
  | less
  | atMost
  | greater
  | atLeast
  | equal
  | different
  deriving DecidableEq

namespace Comparison

/-- Token between the operands. -/
def token : Comparison → String
  | .less => "<"
  | .atMost => "<="
  | .greater => ">"
  | .atLeast => ">="
  | .equal => "=="
  | .different => "!="

/-- The comparison with the given token. -/
def ofToken : String → Except FormationError Comparison
  | "<" => .ok .less
  | "<=" => .ok .atMost
  | ">" => .ok .greater
  | ">=" => .ok .atLeast
  | "==" => .ok .equal
  | "!=" => .ok .different
  | token => .error (.unknownComparison token)

/-- Tokens tell comparisons apart. -/
theorem ofToken_token (c : Comparison) : ofToken c.token = .ok c := by
  cases c <;> rfl

end Comparison

/-- Logical connectives of two operands. -/
inductive Logic where
  | conjunction
  | disjunction
  | implication
  | equivalence
  | exclusion
  deriving DecidableEq

/-- Token between the operands. -/
def Logic.token : Logic → String
  | .conjunction => "and"
  | .disjunction => "or"
  | .implication => "->"
  | .equivalence => "<->"
  | .exclusion => "xor"

/-- Changes between the previous sample and the current one. -/
inductive Edge where
  | rise
  | fall
  deriving DecidableEq

/-- Token before the operand. -/
def Edge.token : Edge → String
  | .rise => "rise"
  | .fall => "fall"

/-- Temporal operators that look through a window at one operand. -/
inductive UnaryTemporal where
  | once
  | historically
  | eventually
  | always
  deriving DecidableEq

namespace UnaryTemporal

/-- Token before the operand. -/
def token : UnaryTemporal → String
  | .once => "once"
  | .historically => "historically"
  | .eventually => "eventually"
  | .always => "always"

/-- The past operator that looks back the way a future operator looks ahead. -/
def past? : UnaryTemporal → Option UnaryTemporal
  | .eventually => some .once
  | .always => some .historically
  | .once => none
  | .historically => none

/-- The operators that look ahead. -/
def isFuture (op : UnaryTemporal) : Bool :=
  op = .eventually ∨ op = .always

/-- Exactly the operators that look ahead can be turned to the past. -/
theorem isSome_past? (op : UnaryTemporal) : op.past?.isSome = op.isFuture := by
  cases op <;> rfl

/-- An operator turned to the past does not look ahead. -/
theorem isFuture_of_past? {op past : UnaryTemporal} (h : op.past? = some past) :
    past.isFuture = false := by
  cases op <;> cases h <;> rfl

end UnaryTemporal

/-- Temporal operators that look through a window at two operands. -/
inductive BinaryTemporal where
  | since
  | until
  | precedes
  deriving DecidableEq

namespace BinaryTemporal

/-- Token between the operands. -/
def token : BinaryTemporal → String
  | .since => "since"
  | .until => "until"
  | .precedes => "precedes"

/-- The operator that looks ahead. -/
def isFuture (op : BinaryTemporal) : Bool :=
  op = .until

end BinaryTemporal

/-- What a node of a formula does, apart from its operands, its window and its
backend. The test `==` compares constants as numbers: a NaN differs from itself. -/
inductive Operator where
  | constant (value : Value)
  | variable (v : Variable)
  | abs
  | arithmetic (op : Arithmetic)
  | comparison (op : Comparison)
  | not
  | logic (op : Logic)
  | edge (op : Edge)
  | unaryTemporal (op : UnaryTemporal)
  | binaryTemporal (op : BinaryTemporal)
  deriving BEq

namespace Operator

/-- Number of operands. -/
def arity : Operator → Nat
  | .constant _ | .variable _ => 0
  | .abs | .not | .edge _ | .unaryTemporal _ => 1
  | .arithmetic _ | .comparison _ | .logic _ | .binaryTemporal _ => 2

/-- The temporal operators with a window are the ones that accept an interval. -/
def acceptsInterval : Operator → Bool
  | .unaryTemporal _ | .binaryTemporal _ => true
  | _ => false

/-- The operators that look ahead. -/
def isFuture : Operator → Bool
  | .unaryTemporal op => op.isFuture
  | .binaryTemporal op => op.isFuture
  | _ => false

/-- The token, or the kind of a leaf. -/
def label : Operator → String
  | .constant _ => "constant"
  | .variable _ => "variable"
  | .abs => "abs"
  | .arithmetic op => op.token
  | .comparison op => op.token
  | .not => "not"
  | .logic op => op.token
  | .edge op => op.token
  | .unaryTemporal op => op.token
  | .binaryTemporal op => op.token

end Operator

end SignalLogic
