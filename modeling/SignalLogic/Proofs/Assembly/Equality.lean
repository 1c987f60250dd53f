import SignalLogic.Formula.Equality
import SignalLogic.Proofs.Assembly.Representation

/-!
# Equal trees

Trees of loose parts are equal when all their parts but the horizons are. Each evaluator is
compared with the operation that it holds, whatever the operator beside it. On layouts this is
equality of formulas.
-/

namespace SignalLogic

deriving instance DecidableEq for Bounds

/-- Operators as nodes hold them: constants are compared as values. -/
def Operator.same : Operator → Operator → Bool
  | .constant x, .constant y => Value.same x y
  | op, op' => op == op'

/-- Equality of the parts of a node, its horizon apart. -/
instance : BEq Parts where
  beq p q := p.operator.same q.operator && p.window == q.window && p.evaluator == q.evaluator

/-- Equality of trees of the same shape, without their horizons. -/
protected def Tree.beq : Tree → Tree → Bool
  | leaf p, leaf q => p == q
  | unary p t, unary q u => p == q && t.beq u
  | binary p l r, binary q l' r' => p == q && l.beq l' && r.beq r'
  | _, _ => false

instance : BEq Tree := ⟨Tree.beq⟩

namespace Formula

/-- A window is told by its ends. -/
theorem bounds_injective : Function.Injective Interval.bounds := by
  rintro ⟨lower, upper, _⟩ ⟨lower', upper', _⟩ h
  cases h
  rfl

theorem window_beq (w w' : Option Interval) :
    (w.map Interval.bounds == w'.map Interval.bounds) = (w == w') := by
  rw [Bool.eq_iff_iff, beq_iff_eq, beq_iff_eq]
  exact (Option.map_injective bounds_injective).eq_iff

theorem parts_beq_leaf (op op' : LeafOp) (h h' : Option Offset) :
    ((leaf op h).parts == (leaf op' h').parts) = (op == op') := by
  cases op with
  | constant x b =>
      cases op' with
      | constant y b' =>
          show (Value.same x y && true && ((b == b') && Value.same x y)) =
            (Value.same x y && decide (b = b'))
          cases b <;> cases b' <;> cases Value.same x y <;> rfl
      | «variable» w b' => rfl
  | «variable» v b =>
      cases op' with
      | constant y b' => rfl
      | «variable» w b' =>
          show (decide (v = w) && true && ((b == b') && true)) = (decide (v = w) && decide (b = b'))
          cases b <;> cases b' <;> cases decide (v = w) <;> rfl

theorem parts_beq_unary (op op' : UnaryOp) (f f' : Formula) (h h' : Option Offset) :
    ((unary op f h).parts == (unary op' f' h').parts) = (op == op') := by
  cases op with
  | abs b =>
      cases op' with
      | abs b' => cases b <;> cases b' <;> rfl
      | _ => rfl
  | not => cases op' <;> rfl
  | edge e =>
      cases op' with
      | edge e' => cases e <;> cases e' <;> rfl
      | _ => rfl
  | temporal op w =>
      cases op' with
      | temporal op' w' =>
          show (op == op' && w.map Interval.bounds == w'.map Interval.bounds && true) = _
          rw [window_beq, Bool.eq_iff_iff]
          simp
      | _ => rfl

theorem parts_beq_binary (op op' : BinaryOp) (l l' r r' : Formula) (h h' : Option Offset) :
    ((binary op l r h).parts == (binary op' l' r' h').parts) = (op == op') := by
  cases op with
  | arithmetic op b =>
      cases op' with
      | arithmetic op' b' => cases b <;> cases b' <;> cases op <;> cases op' <;> rfl
      | _ => rfl
  | comparison op b =>
      cases op' with
      | comparison op' b' => cases b <;> cases b' <;> cases op <;> cases op' <;> rfl
      | _ => rfl
  | logic op =>
      cases op' with
      | logic op' => cases op <;> cases op' <;> rfl
      | _ => rfl
  | temporal op w =>
      cases op' with
      | temporal op' w' =>
          show (op == op' && w.map Interval.bounds == w'.map Interval.bounds && true) = _
          rw [window_beq, Bool.eq_iff_iff]
          simp
      | _ => rfl

/-- Equality of layouts is equality of formulas. -/
theorem tree_beq_tree (f g : Formula) : (f.tree == g.tree) = (f == g) := by
  induction f generalizing g with
  | leaf op h =>
      cases g with
      | leaf op' h' => exact parts_beq_leaf op op' h h'
      | unary | binary => rfl
  | unary op f h ih =>
      cases g with
      | unary op' g h' =>
          rw [unary_beq_unary, ← ih, ← parts_beq_unary op op' f g h h']
          rfl
      | leaf | binary => rfl
  | binary op l r h ihl ihr =>
      cases g with
      | binary op' l' r' h' =>
          rw [binary_beq_binary, ← ihl, ← ihr, ← parts_beq_binary op op' l l' r r' h h']
          rfl
      | leaf | unary => rfl

end Formula

end SignalLogic
