import SignalLogic.Formula.Basic

/-!
# Backends of formulas

A backend can be selected for one node or for a whole formula. A node that no
single sample evaluates accepts every backend and is left as it is. For a whole
formula the nodes are taken in pre-order, so the first one that is evaluated by
samples tells whether the backend is available.
-/

namespace SignalLogic

/-- Select a backend for a leaf. -/
def LeafOp.select (build : Build) (backend : Backend) :
    LeafOp → Except UnavailableBackend LeafOp
  | .constant value _ => do
      let e ← Evaluator.select build backend (.constant value)
      return .constant value e.backend
  | .variable v _ => do
      let e ← Evaluator.select build backend .variable
      return .variable v e.backend

/-- Select a backend for an operator of one operand, if it has one. -/
def UnaryOp.select (build : Build) (backend : Backend) :
    UnaryOp → Except UnavailableBackend UnaryOp
  | .abs _ => do
      let e ← Evaluator.select build backend .abs
      return .abs e.backend
  | op => return op

/-- Select a backend for an operator of two operands, if it has one. -/
def BinaryOp.select (build : Build) (backend : Backend) :
    BinaryOp → Except UnavailableBackend BinaryOp
  | .arithmetic op _ => do
      let e ← Evaluator.select build backend (.arithmetic op)
      return .arithmetic op e.backend
  | .comparison op _ => do
      let e ← Evaluator.select build backend (.comparison op)
      return .comparison op e.backend
  | op => return op

namespace Formula

/-- Select a backend for the root alone. -/
def usingBackend (build : Build) (backend : Backend) :
    Formula → Except UnavailableBackend Formula
  | leaf op h => return leaf (← op.select build backend) h
  | unary op operand h => return unary (← op.select build backend) operand h
  | binary op left right h => return binary (← op.select build backend) left right h

/-- Select a backend for every node, in pre-order. -/
def withBackend (build : Build) (backend : Backend) :
    Formula → Except UnavailableBackend Formula
  | leaf op h => do
      let op ← op.select build backend
      return leaf op h
  | unary op operand h => do
      let op ← op.select build backend
      let operand ← operand.withBackend build backend
      return unary op operand h
  | binary op left right h => do
      let op ← op.select build backend
      let left ← left.withBackend build backend
      let right ← right.withBackend build backend
      return binary op left right h

end Formula

end SignalLogic
