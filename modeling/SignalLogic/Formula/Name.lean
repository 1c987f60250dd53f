import SignalLogic.Formula.Basic

/-!
# Names of formulas

The canonical text of a formula puts every operand in parentheses and leaves no
blanks. It tells neither backends, nor roles, nor horizons.
-/

namespace SignalLogic

/-- Text of the window that follows a temporal operator. -/
def windowChars (window : Option Interval) : List Char :=
  window.elim [] Interval.chars

/-- Every operand is put in parentheses, a leaf too. -/
def parenthesized (text : List Char) : List Char :=
  '(' :: (text ++ [')'])

/-- A leaf is written as its value or its variable. -/
def LeafOp.chars : LeafOp → List Char
  | .constant value _ => value.chars
  | .variable v _ => v.chars

/-- Label and window. -/
def UnaryOp.chars (op : UnaryOp) : List Char :=
  op.operator.label.toList ++ windowChars op.window?

/-- Label and window. -/
def BinaryOp.chars (op : BinaryOp) : List Char :=
  op.operator.label.toList ++ windowChars op.window?

namespace Formula

/-- The operator stands before a single operand and between two. -/
def chars : Formula → List Char
  | leaf op _ => op.chars
  | unary op operand _ => op.chars ++ parenthesized operand.chars
  | binary op left right _ =>
      parenthesized left.chars ++ op.chars ++ parenthesized right.chars

/-- The canonical text of a formula. -/
def name (f : Formula) : String :=
  String.ofList f.chars

/-- Horizons do not show in names. -/
@[simp] theorem name_withHorizon (h : Option Offset) (f : Formula) :
    (f.withHorizon h).name = f.name := by
  cases f <;> rfl

end Formula

end SignalLogic
