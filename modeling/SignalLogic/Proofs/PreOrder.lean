import SignalLogic.Formula.Nodes
import Mathlib.Data.List.Basic

/-!
# Pre-order of nodes

The traversal with a stack visits the recursive pre-order of every formula on the
stack, so statements about all nodes can be proved by recursion on the formula.
-/

namespace SignalLogic.Formula

/-- A stack is visited as the pre-orders of its formulas, one after the other. -/
theorem visit_eq_flatMap (stack : List Formula) :
    visit stack = stack.flatMap subformulas := by
  induction stack using visit.induct with
  | case1 => simp [visit]
  | case2 f stack ih =>
      rw [visit, ih]
      cases f <;> simp [children, subformulas]

/-- The nodes of a formula are its subformulas. -/
theorem nodes_eq_subformulas (f : Formula) : f.nodes = f.subformulas := by
  simp [nodes, visit_eq_flatMap]

theorem size_leaf (op : LeafOp) (h : Option Offset) : (leaf op h).size = 1 := by
  rw [size, nodes_eq_subformulas, subformulas, List.length_singleton]

/-- A root is one node more than its operand has. -/
theorem size_unary (op : UnaryOp) (operand : Formula) (h : Option Offset) :
    (unary op operand h).size = operand.size + 1 := by
  simp only [size, nodes_eq_subformulas, subformulas, List.length_cons]

/-- A root is one node more than its operands have. -/
theorem size_binary (op : BinaryOp) (left right : Formula) (h : Option Offset) :
    (binary op left right h).size = left.size + right.size + 1 := by
  simp only [size, nodes_eq_subformulas, subformulas, List.length_cons, List.length_append]

end SignalLogic.Formula
