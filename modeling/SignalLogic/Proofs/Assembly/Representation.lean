import SignalLogic.Formula.Nodes
import SignalLogic.Formula.Parts
import SignalLogic.Proofs.Assembly.Passes

/-!
# Formulas as trees of loose parts

A formula is laid out as a tree by the views of its nodes. Assembly and the selection of
backends do to the layout of a formula what they do to the formula.
-/

namespace SignalLogic

/-- The ends of a window. -/
def Interval.bounds (i : Interval) : Bounds :=
  ⟨i.lower, i.upper⟩

namespace Bounds

theorem between_eq (lower upper : Offset) :
    Bounds.between lower upper = (Interval.between lower upper).map Interval.bounds := by
  unfold Bounds.between Interval.between
  by_cases h : lower ≤ upper
  · rw [if_neg (UInt64.not_lt.mpr h), dif_pos h]
    rfl
  · rw [if_pos (UInt64.not_le.mp h), dif_neg h]
    rfl

/-- The bounds that can be formed are the ends of windows. -/
theorem formed_iff {b : Bounds} : b.Formed ↔ ∃ i : Interval, i.bounds = b := by
  constructor
  · intro h
    cases h with
    | @between lower upper _ h =>
        rw [between_eq] at h
        cases hi : Interval.between lower upper with
        | error e => simp [hi, Except.map] at h
        | ok i => exact ⟨i, by simpa [hi, Except.map] using h⟩
    | unbounded lower => exact ⟨.unbounded lower, rfl⟩
    | point offset => exact ⟨.point offset, rfl⟩
  · rintro ⟨⟨lower, upper, ordered⟩, rfl⟩
    cases upper with
    | finite upper =>
        have hbetween : Bounds.between lower upper = .ok ⟨lower, .finite upper⟩ := by
          rw [between_eq, Interval.between, dif_pos (Endpoint.finite_le_finite.mp ordered)]
          rfl
        exact .between hbetween
    | infinite => exact .unbounded lower

end Bounds

namespace Formula

/-- The parts of the root, with the evaluator that its views tell. -/
def parts (f : Formula) : Parts where
  operator := f.operator
  window := f.window?.map Interval.bounds
  evaluator := f.evaluator?
  horizon := f.horizon

/-- The tree of the parts of all nodes. -/
def tree : Formula → Tree
  | leaf op h => .leaf (leaf op h).parts
  | unary op operand h => .unary (unary op operand h).parts operand.tree
  | binary op left right h => .binary (binary op left right h).parts left.tree right.tree

@[simp] theorem root_tree (f : Formula) : f.tree.root = f.parts := by
  cases f <;> rfl

@[simp] theorem children_tree (f : Formula) : f.tree.children = f.children.map tree := by
  cases f <;> rfl

theorem nodes_tree (f : Formula) : f.tree.nodes = f.subformulas.map tree := by
  induction f with
  | leaf op h => rfl
  | unary op operand h ih => simp [tree, Tree.nodes, subformulas, ih]
  | binary op left right h ihl ihr => simp [tree, Tree.nodes, subformulas, ihl, ihr]

theorem withHorizon_tree (f : Formula) (h : Option Offset) :
    f.tree.withHorizon h = (f.withHorizon h).tree := by
  cases f <;> rfl

/-- Window and label are written alike. -/
theorem chars_parts_unary (op : UnaryOp) (operand : Formula) (h : Option Offset) :
    (unary op operand h).parts.chars = op.chars := by
  cases hw : op.window? <;> simp [Parts.chars, parts, operator, window?, UnaryOp.chars,
    windowChars, hw, Bounds.chars, Interval.bounds, Interval.chars]

theorem chars_parts_binary (op : BinaryOp) (left right : Formula) (h : Option Offset) :
    (binary op left right h).parts.chars = op.chars := by
  cases hw : op.window? <;> simp [Parts.chars, parts, operator, window?, BinaryOp.chars,
    windowChars, hw, Bounds.chars, Interval.bounds, Interval.chars]

theorem chars_tree (f : Formula) : f.tree.chars = f.chars := by
  induction f with
  | leaf op h => cases op <;> rfl
  | unary op operand h ih => rw [tree, Tree.chars, chars, chars_parts_unary, ih]
  | binary op left right h ihl ihr => rw [tree, Tree.chars, chars, chars_parts_binary, ihl, ihr]

@[simp] theorem name_tree (f : Formula) : f.tree.name = f.name := by
  rw [Tree.name, chars_tree, name]

/-- Assembly succeeds exactly on as many operands as the operator has. -/
theorem assemble?_eq_none_iff {operator : Operator} {operands : List Formula}
    {window : Option Interval} :
    assemble? operator operands window = none ↔ operands.length ≠ operator.arity := by
  rcases operands with _ | ⟨f, _ | ⟨g, _ | ⟨k, rest⟩⟩⟩ <;> cases operator <;>
    simp [assemble?, Operator.arity]

theorem ofParts_tree_of_assemble? {operator : Operator} {operands : List Formula}
    {window : Option Interval} {f : Formula} (h : assemble? operator operands window = some f) :
    Tree.ofParts operator (operands.map tree) (window.map Interval.bounds) =
      if window.isSome && !operator.acceptsInterval then
        .error (.unexpectedInterval operator.label)
      else .ok f.tree := by
  unfold assemble? at h
  split at h
  case h_11 => cases h
  all_goals
    cases h
    cases window <;> rfl

/-- Loose parts are checked as those of a formula are, and assembled to its layout. -/
theorem ofParts_tree (operator : Operator) (operands : List Formula) (window : Option Interval) :
    Tree.ofParts operator (operands.map tree) (window.map Interval.bounds) =
      (ofParts operator operands window).map tree := by
  unfold ofParts
  cases h : assemble? operator operands window with
  | none =>
      have hcount : (operands.map tree).length ≠ operator.arity := by
        rw [List.length_map]
        exact assemble?_eq_none_iff.mp h
      unfold Tree.ofParts
      rw [if_pos hcount, List.length_map]
      rfl
  | some f =>
      rw [ofParts_tree_of_assemble? h]
      dsimp only
      split <;> rfl

section Backends

variable (build : Build) (backend : Backend)

/-- The loose evaluator of a root is replaced as its backend is. -/
theorem select_parts (f : Formula) :
    f.parts.select build backend = (f.usingBackend build backend).map parts := by
  cases f with
  | leaf op h => cases op <;> cases build <;> cases backend <;> rfl
  | unary op operand h => cases op <;> cases build <;> cases backend <;> rfl
  | binary op left right h => cases op <;> cases build <;> cases backend <;> rfl

theorem usingBackend_tree (f : Formula) :
    f.tree.usingBackend build backend = (f.usingBackend build backend).map tree := by
  rw [Tree.usingBackend, root_tree, select_parts]
  cases f with
  | leaf op h =>
      rw [usingBackend]
      cases op.select build backend <;> rfl
  | unary op operand h =>
      rw [usingBackend]
      cases op.select build backend <;> rfl
  | binary op left right h =>
      rw [usingBackend]
      cases op.select build backend <;> rfl

theorem withBackend_tree (f : Formula) :
    f.tree.withBackend build backend = (f.withBackend build backend).map tree := by
  induction f with
  | leaf op h =>
      rw [tree, Tree.withBackend, select_parts, usingBackend, withBackend]
      cases op.select build backend <;> rfl
  | unary op operand h ih =>
      rw [tree, Tree.withBackend, select_parts, usingBackend, withBackend, ih]
      cases op.select build backend with
      | error e => rfl
      | ok op => cases operand.withBackend build backend <;> rfl
  | binary op left right h ihl ihr =>
      rw [tree, Tree.withBackend, select_parts, usingBackend, withBackend, ihl, ihr]
      cases op.select build backend with
      | error e => rfl
      | ok op =>
          cases left.withBackend build backend with
          | error e => rfl
          | ok left => cases right.withBackend build backend <;> rfl

end Backends

end Formula

end SignalLogic
