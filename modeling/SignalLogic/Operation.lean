import SignalLogic.Operator

/-!
# Operations

The pointwise operations on values: leaves, arithmetic and comparisons. A
comparison yields a robustness degree, which is not negative when it holds.
-/

namespace SignalLogic

/-- What a node computes from one sample of its operands. -/
inductive Operation where
  | constant (value : Value)
  | variable
  | abs
  | arithmetic (op : Arithmetic)
  | comparison (op : Comparison)

/-- The number of values given to an operation differs from its arity. -/
structure InputError where
  operation : Operation
  actual : Nat

/-- Arithmetic is that of double-precision numbers. -/
def Arithmetic.apply (op : Arithmetic) (x y : Value) : Value :=
  match op with
  | .addition => x + y
  | .subtraction => x - y
  | .multiplication => x * y
  | .division => x / y

/-- Degree to which a comparison holds. -/
def Comparison.robustness (op : Comparison) (x y : Value) : Value :=
  match op with
  | .less | .atMost => y - x
  | .greater | .atLeast => x - y
  | .equal => -(x - y).abs
  | .different => (x - y).abs

/-- Name of the operation in messages. -/
def Arithmetic.word : Arithmetic → String
  | .addition => "addition"
  | .subtraction => "subtraction"
  | .multiplication => "multiplication"
  | .division => "division"

namespace Operation

/-- Number of values that an operation consumes; a variable consumes its sample. -/
def arity : Operation → Nat
  | .constant _ => 0
  | .variable | .abs => 1
  | .arithmetic _ | .comparison _ => 2

/-- Name of the operation in messages. -/
def text : Operation → String
  | .constant value => "constant " ++ value.text
  | .variable => "variable"
  | .abs => "abs"
  | .arithmetic op => op.word
  | .comparison op => "predicate " ++ op.token

/-- Operations are the same when their constants are. -/
protected def beq : Operation → Operation → Bool
  | .constant x, .constant y => Value.same x y
  | .variable, .variable => true
  | .abs, .abs => true
  | .arithmetic op, .arithmetic op' => op = op'
  | .comparison op, .comparison op' => op = op'
  | _, _ => false

instance : BEq Operation := ⟨Operation.beq⟩

/-- Apply an operation to one sample. -/
def update : Operation → List Value → Except InputError Value
  | .constant value, [] => .ok value
  | .variable, [x] => .ok x
  | .abs, [x] => .ok x.abs
  | .arithmetic op, [x, y] => .ok (op.apply x y)
  | .comparison op, [x, y] => .ok (op.robustness x y)
  | operation, sample => .error ⟨operation, sample.length⟩

end Operation

/-- The wording shown to a user. -/
def InputError.message (e : InputError) : String :=
  s!"Operation {e.operation.text} expects {e.operation.arity} input(s), got {e.actual}"

/-- The operation that evaluates the nodes of an operator, if a sample suffices. -/
def Operator.operation? : Operator → Option Operation
  | .constant value => some (.constant value)
  | .variable _ => some .variable
  | .abs => some .abs
  | .arithmetic op => some (.arithmetic op)
  | .comparison op => some (.comparison op)
  | .not | .logic _ | .edge _ | .unaryTemporal _ | .binaryTemporal _ => none

namespace Operation

/-- An operation is the same as itself, whatever its constant. -/
theorem beq_refl (k : Operation) : (k == k) = true := by
  cases k <;> simp [BEq.beq, Operation.beq, Value.same_refl]

end Operation

end SignalLogic
