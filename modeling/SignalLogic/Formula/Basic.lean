import SignalLogic.Interval
import SignalLogic.Evaluator

/-!
# Formulas

Trees of signal temporal logic. A node holds a backend exactly when a single
sample evaluates it, and a window only when it looks into the past or the future
of its operands. Every node also stores a horizon, the number of samples beyond
the current one that it needs, or none while that is not known.
-/

namespace SignalLogic

/-- Operator of a node without operands. -/
inductive LeafOp where
  | constant (value : Value) (backend : Backend)
  | variable (v : Variable) (backend : Backend)

/-- Operator of a node with one operand. -/
inductive UnaryOp where
  | abs (backend : Backend)
  | not
  | edge (op : Edge)
  | temporal (op : UnaryTemporal) (window : Option Interval)
  deriving DecidableEq

/-- Operator of a node with two operands. -/
inductive BinaryOp where
  | arithmetic (op : Arithmetic) (backend : Backend)
  | comparison (op : Comparison) (backend : Backend)
  | logic (op : Logic)
  | temporal (op : BinaryTemporal) (window : Option Interval)
  deriving DecidableEq

/-- A formula of signal temporal logic. -/
inductive Formula where
  | leaf (op : LeafOp) (horizon : Option Offset)
  | unary (op : UnaryOp) (operand : Formula) (horizon : Option Offset)
  | binary (op : BinaryOp) (left right : Formula) (horizon : Option Offset)

namespace LeafOp

/-- The operator without its backend. -/
def operator : LeafOp → Operator
  | .constant value _ => .constant value
  | .variable v _ => .variable v

/-- Every leaf is evaluated by samples. -/
def backend : LeafOp → Backend
  | .constant _ backend => backend
  | .variable _ backend => backend

end LeafOp

namespace UnaryOp

/-- The operator without its backend or window. -/
def operator : UnaryOp → Operator
  | .abs _ => .abs
  | .not => .not
  | .edge op => .edge op
  | .temporal op _ => .unaryTemporal op

/-- The backend of an operator that a single sample evaluates. -/
def backend? : UnaryOp → Option Backend
  | .abs backend => some backend
  | .not | .edge _ | .temporal _ _ => none

/-- The window of a temporal operator, if it was given one. -/
def window? : UnaryOp → Option Interval
  | .temporal _ window => window
  | .abs _ | .not | .edge _ => none

/-- How far a future operator looks ahead, if that is finite. -/
def reach? (op : UnaryOp) : Option Offset :=
  if op.operator.isFuture then op.window?.bind (·.upper.offset?) else none

end UnaryOp

namespace BinaryOp

/-- The operator without its backend or window. -/
def operator : BinaryOp → Operator
  | .arithmetic op _ => .arithmetic op
  | .comparison op _ => .comparison op
  | .logic op => .logic op
  | .temporal op _ => .binaryTemporal op

/-- The backend of an operator that a single sample evaluates. -/
def backend? : BinaryOp → Option Backend
  | .arithmetic _ backend => some backend
  | .comparison _ backend => some backend
  | .logic _ | .temporal _ _ => none

/-- The window of a temporal operator, if it was given one. -/
def window? : BinaryOp → Option Interval
  | .temporal _ window => window
  | .arithmetic _ _ | .comparison _ _ | .logic _ => none

/-- How far a future operator looks ahead, if that is finite. -/
def reach? (op : BinaryOp) : Option Offset :=
  if op.operator.isFuture then op.window?.bind (·.upper.offset?) else none

end BinaryOp

namespace Formula

-- Fresh nodes use the reference backend and have no horizon.

def ofValue (value : Value) : Formula :=
  leaf (.constant value .reference) none

def ofVariable (v : Variable) : Formula :=
  leaf (.variable v .reference) none

def abs (operand : Formula) : Formula :=
  unary (.abs .reference) operand none

def not (operand : Formula) : Formula :=
  unary .not operand none

def edge (op : Edge) (operand : Formula) : Formula :=
  unary (.edge op) operand none

def unaryTemporal (op : UnaryTemporal) (window : Option Interval) (operand : Formula) :
    Formula :=
  unary (.temporal op window) operand none

def arithmetic (op : Arithmetic) (left right : Formula) : Formula :=
  binary (.arithmetic op .reference) left right none

def comparison (op : Comparison) (left right : Formula) : Formula :=
  binary (.comparison op .reference) left right none

def logic (op : Logic) (left right : Formula) : Formula :=
  binary (.logic op) left right none

def binaryTemporal (op : BinaryTemporal) (window : Option Interval)
    (left right : Formula) : Formula :=
  binary (.temporal op window) left right none

/-- Operator of the root. -/
def operator : Formula → Operator
  | leaf op _ => op.operator
  | unary op _ _ => op.operator
  | binary op _ _ _ => op.operator

/-- Operands of the root, from left to right. -/
def children : Formula → List Formula
  | leaf _ _ => []
  | unary _ operand _ => [operand]
  | binary _ left right _ => [left, right]

/-- Window of the root. -/
def window? : Formula → Option Interval
  | leaf _ _ => none
  | unary op _ _ => op.window?
  | binary op _ _ _ => op.window?

/-- Backend of the root. -/
def backend? : Formula → Option Backend
  | leaf op _ => some op.backend
  | unary op _ _ => op.backend?
  | binary op _ _ _ => op.backend?

/-- Horizon stored at the root. -/
def horizon : Formula → Option Offset
  | leaf _ horizon => horizon
  | unary _ _ horizon => horizon
  | binary _ _ _ horizon => horizon

/-- The evaluator of a node that a single sample evaluates. -/
def evaluator? (f : Formula) : Option Evaluator := do
  let backend ← f.backend?
  let operation ← f.operator.operation?
  return ⟨backend, operation⟩

/-- The same formula with another horizon at its root. -/
def withHorizon (horizon : Option Offset) : Formula → Formula
  | leaf op _ => leaf op horizon
  | unary op operand _ => unary op operand horizon
  | binary op left right _ => binary op left right horizon

/-- The root looks ahead. -/
def isFuture (f : Formula) : Bool :=
  f.operator.isFuture

/-- The root is a future operator whose window ends at a finite offset. -/
def isBoundedFuture (f : Formula) : Bool :=
  f.isFuture && f.window?.any Interval.isFinite

/-- Number of nodes on the longest path from the root to a leaf. -/
def depth : Formula → Nat
  | leaf _ _ => 1
  | unary _ operand _ => 1 + operand.depth
  | binary _ left right _ => 1 + max left.depth right.depth

/-- A node has as many operands as its operator asks for. -/
@[simp] theorem length_children (f : Formula) : f.children.length = f.operator.arity := by
  cases f with
  | leaf op _ => cases op <;> rfl
  | unary op _ _ => cases op <;> rfl
  | binary op _ _ _ => cases op <;> rfl

/-- Exactly the nodes that a single sample evaluates have a backend. -/
theorem isSome_backend? (f : Formula) :
    f.backend?.isSome = f.operator.operation?.isSome := by
  cases f with
  | leaf op _ => cases op <;> rfl
  | unary op _ _ => cases op <;> rfl
  | binary op _ _ _ => cases op <;> rfl

/-- Only operators that accept an interval have a window. -/
theorem acceptsInterval_of_window? {f : Formula} {i : Interval} (h : f.window? = some i) :
    f.operator.acceptsInterval = true := by
  cases f with
  | leaf op _ => cases h
  | unary op _ _ =>
    cases op with
    | temporal _ _ => rfl
    | _ => cases h
  | binary op _ _ _ =>
    cases op with
    | temporal _ _ => rfl
    | _ => cases h

@[simp] theorem horizon_withHorizon (h : Option Offset) (f : Formula) :
    (f.withHorizon h).horizon = h := by
  cases f <;> rfl

end Formula

end SignalLogic
