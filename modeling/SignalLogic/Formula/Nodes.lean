import SignalLogic.Formula.Basic

/-!
# Nodes of formulas

The nodes of a formula are visited in pre-order with a stack of the formulas that
are still to be visited. The measure is the length of the recursive pre-order.
-/

namespace SignalLogic.Formula

/-- A formula and all formulas below it, each before its operands and the left
operand before the right one. -/
def subformulas : Formula → List Formula
  | leaf op h => [leaf op h]
  | unary op operand h => unary op operand h :: operand.subformulas
  | binary op left right h =>
      binary op left right h :: (left.subformulas ++ right.subformulas)

/-- Number of nodes below the formulas of a stack, the formulas included. -/
def pending (stack : List Formula) : Nat :=
  (stack.flatMap subformulas).length

/-- Replacing a formula by its operands leaves fewer nodes to visit. -/
theorem pending_children_lt (f : Formula) (stack : List Formula) :
    pending (f.children ++ stack) < pending (f :: stack) := by
  cases f <;> simp [pending, children, subformulas]

/-- Visit the formulas of a stack and everything below them. -/
def visit : List Formula → List Formula
  | [] => []
  | f :: stack => f :: visit (f.children ++ stack)
termination_by stack => pending stack
decreasing_by exact pending_children_lt f stack

/-- All nodes of a formula in pre-order. -/
def nodes (f : Formula) : List Formula :=
  visit [f]

/-- Number of nodes. -/
def size (f : Formula) : Nat :=
  f.nodes.length

/-- No node looks into the future. -/
def isPastOnly (f : Formula) : Bool :=
  f.nodes.all fun g => !g.isFuture

end SignalLogic.Formula
