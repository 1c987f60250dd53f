import SignalLogic.Formula.Nodes
import SignalLogic.Horizon
import SignalLogic.Proofs.PreOrder

/-!
# How far formulas look ahead

Along a path from the root to a leaf the reaches of the bounded future operators
add up. The horizon pass computes the greatest of these sums, unless some future
operator has no finite window or the sum exceeds the greatest offset.
-/

namespace SignalLogic

/-- Samples that an operator looks ahead; none unless its reach is finite. -/
def UnaryOp.reach (op : UnaryOp) : Nat :=
  op.reach?.elim 0 UInt64.toNat

/-- Samples that an operator looks ahead; none unless its reach is finite. -/
def BinaryOp.reach (op : BinaryOp) : Nat :=
  op.reach?.elim 0 UInt64.toNat

namespace Formula

/-- The sum of the reaches on the path to each leaf, leaves from left to right. -/
def pathReaches : Formula → List Nat
  | leaf _ _ => [0]
  | unary op operand _ => operand.pathReaches.map (op.reach + ·)
  | binary op left right _ => (left.pathReaches ++ right.pathReaches).map (op.reach + ·)

/-- The greatest sum of reaches on a path from the root to a leaf. -/
def reach : Formula → Nat
  | leaf _ _ => 0
  | unary op operand _ => op.reach + operand.reach
  | binary op left right _ => op.reach + max left.reach right.reach

/-- The root looks ahead through an absent or an infinite window. -/
def isOpenFuture (f : Formula) : Bool :=
  f.isFuture && !f.window?.any Interval.isFinite

/-- No part of the formula looks ahead without a finite window. -/
def Closed (f : Formula) : Prop :=
  ∀ g ∈ f.subformulas, g.isOpenFuture = false

@[simp] theorem closed_leaf (op : LeafOp) (h : Option Offset) : (leaf op h).Closed := by
  cases op <;> simp [Closed, subformulas, isOpenFuture, isFuture, operator, LeafOp.operator,
    Operator.isFuture]

@[simp] theorem closed_unary_iff (op : UnaryOp) (operand : Formula) (h : Option Offset) :
    (unary op operand h).Closed ↔ (unary op operand h).isOpenFuture = false ∧ operand.Closed := by
  simp [Closed, subformulas]

@[simp] theorem closed_binary_iff (op : BinaryOp) (left right : Formula) (h : Option Offset) :
    (binary op left right h).Closed ↔
      (binary op left right h).isOpenFuture = false ∧ left.Closed ∧ right.Closed := by
  simp [Closed, subformulas, or_imp, forall_and]

/-- Every formula has a path to a leaf. -/
theorem reach_mem_pathReaches (f : Formula) : f.reach ∈ f.pathReaches := by
  induction f with
  | leaf op h => simp [reach, pathReaches]
  | unary op operand h ih => simpa [reach, pathReaches] using ih
  | binary op left right h ihl ihr =>
      rcases Nat.le_total left.reach right.reach with hle | hle
      · simpa [reach, pathReaches, Nat.max_eq_right hle] using Or.inr ihr
      · simpa [reach, pathReaches, Nat.max_eq_left hle] using Or.inl ihl

/-- The reach of a formula is the least bound of the sums on its paths. -/
theorem pathReaches_le_iff (f : Formula) (n : Nat) :
    (∀ s ∈ f.pathReaches, s ≤ n) ↔ f.reach ≤ n := by
  constructor
  · intro h
    exact h f.reach f.reach_mem_pathReaches
  · intro h
    induction f generalizing n with
    | leaf op h' => simp [pathReaches]
    | unary op operand h' ih =>
        simp only [reach] at h
        have hs := ih (n - op.reach) (by omega)
        simp only [pathReaches, List.mem_map, forall_exists_index, and_imp,
          forall_apply_eq_imp_iff₂]
        intro s hmem
        have := hs s hmem
        omega
    | binary op left right h' ihl ihr =>
        simp only [reach] at h
        have hl := ihl (n - op.reach) (by omega)
        have hr := ihr (n - op.reach) (by omega)
        simp only [pathReaches, List.mem_map, List.mem_append, forall_exists_index, and_imp,
          forall_apply_eq_imp_iff₂]
        rintro s (hmem | hmem)
        · have := hl s hmem
          omega
        · have := hr s hmem
          omega

end Formula

/-- The horizon of an operator is defined over a defined horizon of its operands
unless it looks ahead without a finite reach or the sum does not fit. -/
theorem Horizon.passed_eq_some_iff {future : Bool} {reach operands : Option Offset}
    (hr : future = false → reach = none) (horizon : Offset) :
    (if future then Horizon.beyond reach operands else operands) = some horizon ↔
      (future = true → reach.isSome = true) ∧
        ∃ a, operands = some a ∧ reach.elim 0 UInt64.toNat + a.toNat = horizon.toNat := by
  cases future with
  | false => simp [hr rfl, UInt64.toNat_inj]
  | true =>
      cases reach with
      | none => simp [Horizon.beyond]
      | some r =>
          cases operands with
          | none => simp [Horizon.beyond]
          | some a => simp [Horizon.beyond, Offset.add?_eq_some_iff]

/-- Only future operators reach ahead. -/
theorem UnaryOp.reach?_of_not_future {op : UnaryOp} (h : op.operator.isFuture = false) :
    op.reach? = none := by
  simp [UnaryOp.reach?, h]

/-- Only future operators reach ahead. -/
theorem BinaryOp.reach?_of_not_future {op : BinaryOp} (h : op.operator.isFuture = false) :
    op.reach? = none := by
  simp [BinaryOp.reach?, h]

/-- Two horizons are joined to the greater one. -/
theorem Horizon.join_eq_some_iff {a b : Option Offset} {c : Offset} :
    Horizon.join a b = some c ↔
      ∃ x y, a = some x ∧ b = some y ∧ max x.toNat y.toNat = c.toNat := by
  have hmax (x y : Offset) : (max x y).toNat = max x.toNat y.toNat := by
    change (if x ≤ y then y else x).toNat = _
    simp only [UInt64.le_iff_toNat_le]
    split <;> omega
  cases a with
  | none => simp [Horizon.join]
  | some x =>
      cases b with
      | none => simp [Horizon.join]
      | some y =>
          simp only [Horizon.join, Option.some_inj, ← UInt64.toNat_inj, hmax]
          constructor
          · intro h
            exact ⟨x, y, rfl, rfl, h⟩
          · rintro ⟨x', y', hx, hy, h⟩
            rw [hx, hy]
            exact h

namespace Formula

theorem isOpenFuture_unary (op : UnaryOp) (operand : Formula) (h : Option Offset) :
    (unary op operand h).isOpenFuture = false ↔
      (op.operator.isFuture = true → op.reach?.isSome = true) := by
  cases hf : op.operator.isFuture with
  | false => simp [isOpenFuture, isFuture, operator, hf]
  | true =>
      cases hw : op.window? with
      | none => simp [isOpenFuture, isFuture, operator, window?, UnaryOp.reach?, hf, hw]
      | some i => simp [isOpenFuture, isFuture, operator, window?, UnaryOp.reach?, hf, hw,
          Interval.isFinite]

theorem isOpenFuture_binary (op : BinaryOp) (left right : Formula) (h : Option Offset) :
    (binary op left right h).isOpenFuture = false ↔
      (op.operator.isFuture = true → op.reach?.isSome = true) := by
  cases hf : op.operator.isFuture with
  | false => simp [isOpenFuture, isFuture, operator, hf]
  | true =>
      cases hw : op.window? with
      | none => simp [isOpenFuture, isFuture, operator, window?, BinaryOp.reach?, hf, hw]
      | some i => simp [isOpenFuture, isFuture, operator, window?, BinaryOp.reach?, hf, hw,
          Interval.isFinite]

/-- The horizon pass computes the reach of a formula whose future windows are all
finite, if it fits an offset. -/
theorem horizon_annotate_eq_some_iff (f : Formula) (horizon : Offset) :
    f.annotate.value.horizon = some horizon ↔ f.Closed ∧ f.reach = horizon.toNat := by
  induction f generalizing horizon with
  | leaf op h => simp [annotate, reach, ← UInt64.toNat_inj]
  | unary op operand h ih =>
      simp only [annotate, Logged.value_bind, value_settle, horizon_withHorizon,
        UnaryOp.horizon, Horizon.passed_eq_some_iff UnaryOp.reach?_of_not_future,
        closed_unary_iff, isOpenFuture_unary, ih, reach, UnaryOp.reach]
      constructor
      · rintro ⟨hopen, a, ⟨hc, ha⟩, hsum⟩
        exact ⟨⟨hopen, hc⟩, by omega⟩
      · rintro ⟨⟨hopen, hc⟩, hsum⟩
        have hlt := horizon.toNat_lt_size
        refine ⟨hopen, .ofNat operand.reach, ⟨hc, ?_⟩, ?_⟩
        · rw [UInt64.toNat_ofNat_of_lt' (by omega)]
        · rw [UInt64.toNat_ofNat_of_lt' (by omega)]
          exact hsum
  | binary op left right h ihl ihr =>
      simp only [annotate, Logged.value_bind, value_settle, horizon_withHorizon,
        BinaryOp.horizon, Horizon.passed_eq_some_iff BinaryOp.reach?_of_not_future,
        closed_binary_iff, isOpenFuture_binary, Horizon.join_eq_some_iff, ihl, ihr, reach,
        BinaryOp.reach]
      constructor
      · rintro ⟨hopen, a, ⟨x, y, ⟨hcl, hx⟩, ⟨hcr, hy⟩, hmax⟩, hsum⟩
        exact ⟨⟨hopen, hcl, hcr⟩, by omega⟩
      · rintro ⟨⟨hopen, hcl, hcr⟩, hsum⟩
        have hlt := horizon.toNat_lt_size
        refine ⟨hopen, .ofNat (max left.reach right.reach),
          ⟨.ofNat left.reach, .ofNat right.reach, ⟨hcl, ?_⟩, ⟨hcr, ?_⟩, ?_⟩, ?_⟩
        · rw [UInt64.toNat_ofNat_of_lt' (by omega)]
        · rw [UInt64.toNat_ofNat_of_lt' (by omega)]
        · rw [UInt64.toNat_ofNat_of_lt' (by omega), UInt64.toNat_ofNat_of_lt' (by omega),
            UInt64.toNat_ofNat_of_lt' (by omega)]
        · rw [UInt64.toNat_ofNat_of_lt' (by omega)]
          exact hsum

/-- Storing horizons changes no reach. -/
@[simp] theorem reach_annotate (f : Formula) : f.annotate.value.reach = f.reach := by
  induction f with
  | leaf op h => simp [annotate, withHorizon, reach]
  | unary op operand h ih => simp [annotate, withHorizon, reach, ih]
  | binary op left right h ihl ihr => simp [annotate, withHorizon, reach, ihl, ihr]

/-- The horizon that the pass reports is the one that it stores at the root. -/
@[simp] theorem value_computeHorizon (f : Formula) :
    f.computeHorizon.value = f.annotate.value := by
  unfold computeHorizon
  simp only [Logged.value_bind]
  split <;> rfl

end Formula

end SignalLogic
