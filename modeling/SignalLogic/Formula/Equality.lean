import SignalLogic.Formula.Basic

/-!
# Equality of formulas

Two formulas are equal when they agree in everything but their horizons. Constants
are compared as values, so both zeros are equal and a NaN equals itself.
-/

namespace SignalLogic

/-- Equality of leaves. -/
protected def LeafOp.beq : LeafOp → LeafOp → Bool
  | .constant x b, .constant y b' => Value.same x y && b = b'
  | .variable v b, .variable w b' => v = w && b = b'
  | _, _ => false

instance : BEq LeafOp := ⟨LeafOp.beq⟩

namespace LeafOp

variable {op : LeafOp} {x : Value} {v : Variable} {b : Backend}

/-- Only a constant equals a constant. -/
theorem eq_constant_of_beq (h : (op == .constant x b) = true) : ∃ y, op = .constant y b := by
  cases op with
  | constant y _ =>
      obtain rfl := of_decide_eq_true (Bool.and_eq_true_iff.mp h).2
      exact ⟨y, rfl⟩
  | «variable» _ _ => cases h

/-- Only the same leaf equals a variable. -/
theorem eq_variable_of_beq (h : (op == .variable v b) = true) : op = .variable v b := by
  cases op with
  | constant _ _ => cases h
  | «variable» w _ =>
      obtain ⟨hv, hb⟩ := Bool.and_eq_true_iff.mp h
      rw [of_decide_eq_true hv, of_decide_eq_true hb]

end LeafOp

namespace Formula

/-- Equality of formulas of the same shape, without their horizons. -/
protected def beq : Formula → Formula → Bool
  | leaf op _, leaf op' _ => op == op'
  | unary op f _, unary op' f' _ => op == op' && f.beq f'
  | binary op l r _, binary op' l' r' _ => op == op' && l.beq l' && r.beq r'
  | _, _ => false

instance : BEq Formula := ⟨Formula.beq⟩

@[simp] theorem leaf_beq_leaf {op op' : LeafOp} {h h' : Option Offset} :
    (leaf op h == leaf op' h') = (op == op') := rfl

@[simp] theorem unary_beq_unary {op op' : UnaryOp} {f f' : Formula} {h h' : Option Offset} :
    (unary op f h == unary op' f' h') = (op == op' && f == f') := rfl

@[simp] theorem binary_beq_binary {op op' : BinaryOp} {l l' r r' : Formula}
    {h h' : Option Offset} :
    (binary op l r h == binary op' l' r' h') = (op == op' && l == l' && r == r') := rfl

end Formula

end SignalLogic
