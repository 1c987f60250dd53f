import SignalLogic.Proofs.Assembly.Simulation
import SignalLogic.Proofs.Equality
import SignalLogic.Proofs.Grammar.Printing
import SignalLogic.Proofs.OpenFuture
import SignalLogic.Proofs.Provenance

/-!
# Fixed points of pastification

Pastification leaves a formula as it is when nothing is left to do: no operator looks ahead
through a finite window, and no variable has to be delayed. Any other formula is changed
visibly. A bounded future operator is missing among those of the result, and every delay is
one node more.
-/

namespace SignalLogic

open Grammar

namespace Formula

variable {f g : Formula} {budget : Offset}

/-- No node looks ahead through a finite window. -/
def Pastified (f : Formula) : Prop :=
  f.All fun g => g.isBoundedFuture = false

/-- The variables that a formula reads, from left to right. -/
def signals (f : Formula) : List Variable :=
  f.nodes.filterMap fun g =>
    match g.operator with
    | .variable v => some v
    | _ => none

theorem signals_constant (x : Value) (b : Backend) (h : Option Offset) :
    (leaf (.constant x b) h).signals = [] := by
  simp [signals, nodes_eq_subformulas, subformulas, operator, LeafOp.operator]

theorem signals_variable (v : Variable) (b : Backend) (h : Option Offset) :
    (leaf (.variable v b) h).signals = [v] := by
  simp [signals, nodes_eq_subformulas, subformulas, operator, LeafOp.operator]

theorem signals_unary (op : UnaryOp) (operand : Formula) (h : Option Offset) :
    (unary op operand h).signals = operand.signals := by
  cases op <;> simp [signals, nodes_eq_subformulas, subformulas, operator, UnaryOp.operator]

theorem signals_binary (op : BinaryOp) (left right : Formula) (h : Option Offset) :
    (binary op left right h).signals = left.signals ++ right.signals := by
  cases op <;> simp [signals, nodes_eq_subformulas, subformulas, operator, BinaryOp.operator]

theorem pastified_unary_iff {op : UnaryOp} {h : Option Offset} :
    (unary op f h).Pastified ↔ op.lookAhead? = none ∧ f.Pastified := by
  rw [Pastified, all_unary_iff, isBoundedFuture_unary, Option.isSome_eq_false_iff,
    Option.isNone_iff_eq_none, Pastified]

theorem pastified_binary_iff {op : BinaryOp} {h : Option Offset} :
    (binary op f g h).Pastified ↔ op.lookAhead? = none ∧ f.Pastified ∧ g.Pastified := by
  rw [Pastified, all_binary_iff, isBoundedFuture_binary, Option.isSome_eq_false_iff,
    Option.isNone_iff_eq_none, Pastified, Pastified]

/-- A formula is pastified when all its future operators occur in some formula as open ones. -/
theorem pastified_of_futures (h : f.futures = g.openFutures) : f.Pastified := by
  intro s hs
  rw [nodes_eq_subformulas] at hs
  cases hfuture : s.isFuture with
  | false => rw [isBoundedFuture, hfuture, Bool.false_and]
  | true =>
      have hopen := isOpenFuture_of_futures h hs hfuture
      rw [isOpenFuture, hfuture, Bool.true_and, Bool.not_eq_true'] at hopen
      rw [isBoundedFuture, hopen, Bool.and_false]

/-- Pastification leaves no operator that looks ahead through a finite window. -/
theorem pastified_pastifyWithin (f : Formula) (budget : Offset) :
    (f.pastifyWithin budget).value.Pastified :=
  pastified_of_futures (f.futures_pastifyWithin budget)

/-- Where nothing is left to do, only the horizons are dropped. -/
theorem value_pastifyWithin_of_pastified (hf : f.Pastified)
    (hdelay : budget = 0 ∨ f.signals = []) : (f.pastifyWithin budget).value = bare f := by
  induction f with
  | leaf op h =>
      cases op with
      | constant x b => rfl
      | «variable» v b =>
          rw [signals_variable] at hdelay
          obtain rfl : budget = 0 := hdelay.resolve_right (List.cons_ne_nil v [])
          rfl
  | unary op operand h ih =>
      obtain ⟨ha, hoperand⟩ := pastified_unary_iff.mp hf
      rw [signals_unary] at hdelay
      rw [value_pastifyWithin_unary ha, ih hoperand hdelay, bare]
  | binary op left right h ihl ihr =>
      obtain ⟨ha, hleft, hright⟩ := pastified_binary_iff.mp hf
      rw [signals_binary, List.append_eq_nil_iff] at hdelay
      rw [value_pastifyWithin_binary ha, ihl hleft (hdelay.imp_right And.left),
        ihr hright (hdelay.imp_right And.right), bare]

/-- A budget costs a pastified formula one more node for every variable. -/
theorem size_pastifyWithin_of_pastified (hf : f.Pastified) (hbudget : budget ≠ 0) :
    (f.pastifyWithin budget).value.size = f.size + f.signals.length := by
  induction f with
  | leaf op h =>
      cases op with
      | constant x b =>
          rw [signals_constant, size_leaf]
          exact size_leaf (.constant x b) none
      | «variable» v b =>
          change ((leaf (.variable v b) none).delayed budget).size = _
          rw [delayed, if_neg hbudget, unaryTemporal, size_unary, size_leaf, size_leaf,
            signals_variable, List.length_singleton]
  | unary op operand h ih =>
      obtain ⟨ha, hoperand⟩ := pastified_unary_iff.mp hf
      calc
        ((unary op operand h).pastifyWithin budget).value.size
          = (operand.pastifyWithin budget).value.size + 1 := by
            rw [value_pastifyWithin_unary ha, size_unary]
        _ = (unary op operand h).size + (unary op operand h).signals.length := by
            rw [ih hoperand, size_unary, signals_unary]
            omega
  | binary op left right h ihl ihr =>
      obtain ⟨ha, hleft, hright⟩ := pastified_binary_iff.mp hf
      calc
        ((binary op left right h).pastifyWithin budget).value.size
          = (left.pastifyWithin budget).value.size +
              (right.pastifyWithin budget).value.size + 1 := by
            rw [value_pastifyWithin_binary ha, size_binary]
        _ = (binary op left right h).size + (binary op left right h).signals.length := by
            rw [ihl hleft, ihr hright, size_binary, signals_binary, List.length_append]
            omega

theorem Alike.size_eq (h : Alike f g) : f.size = g.size := by
  induction h with
  | leaf => rw [size_leaf, size_leaf]
  | unary op hf ih => rw [size_unary, size_unary, ih]
  | binary op hl hr ihl ihr => rw [size_binary, size_binary, ihl, ihr]

theorem Alike.futures_eq (h : Alike f g) : f.futures = g.futures := by
  induction h with
  | leaf => rw [futures_leaf, futures_leaf]
  | unary op hf ih => rw [futures_unary, futures_unary, ih]
  | binary op hl hr ihl ihr => rw [futures_binary, futures_binary, ihl, ihr]

/-- A formula without horizons is all that can be read of it. -/
theorem bare_eq_self (h : f.All fun g => g.horizon = none) : bare f = f := by
  induction f with
  | leaf op horizon =>
      obtain rfl : horizon = none := all_leaf_iff.mp h
      rfl
  | unary op operand horizon ih =>
      obtain ⟨hroot, hoperand⟩ := all_unary_iff.mp h
      obtain rfl : horizon = none := hroot
      rw [bare, ih hoperand]
  | binary op left right horizon ihl ihr =>
      obtain ⟨hroot, hleft, hright⟩ := all_binary_iff.mp h
      obtain rfl : horizon = none := hroot
      rw [bare, ihl hleft, ihr hright]

/-- A formula that equals its pastification has nothing left to do. -/
theorem pastified_of_pastifyWithin_beq (h : ((f.pastifyWithin budget).value == f) = true) :
    f.Pastified ∧ (budget = 0 ∨ f.signals = []) := by
  have halike := alike_iff_beq.mpr h
  have hpastified : f.Pastified :=
    pastified_of_futures (halike.futures_eq.symm.trans (f.futures_pastifyWithin budget))
  refine ⟨hpastified, ?_⟩
  -- A delayed variable would make the result larger than the formula.
  by_contra! hdelay
  have hsize : f.size + f.signals.length = f.size :=
    (size_pastifyWithin_of_pastified hpastified hdelay.1).symm.trans halike.size_eq
  have hsignals : 0 < f.signals.length := List.length_pos_iff.mpr hdelay.2
  omega

/-- The fixed points of pastification are the formulas without bounded future operators, and
under a budget other than zero without variables too. Such a formula loses its horizons and
nothing else, its backends, roles and constants are kept. The same formula comes out when every
node is taken apart and assembled again. Pastifying it once more, without a budget, leaves it
exactly as it is. -/
theorem pastify_fixed_iff (f : Formula) (n : Offset) :
    let past := (f.pastifyWithHorizon n).value
    ((past == f) = true ↔ f.Pastified ∧ (n = 0 ∨ f.signals = [])) ∧
    (past = bare f ↔ f.Pastified ∧ (n = 0 ∨ f.signals = [])) ∧
    (f.tree.pastifyWithHorizon n).run.value = .ok past.tree ∧
    (past.pastifyWithHorizon 0).value = past := by
  intro past
  have hequal : (past == f) = true → f.Pastified ∧ (n = 0 ∨ f.signals = []) :=
    pastified_of_pastifyWithin_beq
  have hfixed (h : f.Pastified ∧ (n = 0 ∨ f.signals = [])) : past = bare f :=
    value_pastifyWithin_of_pastified h.1 h.2
  have hbare (h : past = bare f) : (past == f) = true := by
    rw [h]
    exact bare_beq f
  refine ⟨⟨hequal, fun h => hbare (hfixed h)⟩, ⟨fun h => hequal (hbare h), hfixed⟩,
    f.value_pastifyWithHorizon_tree n, ?_⟩
  calc
    (past.pastifyWithHorizon 0).value
      = bare past := value_pastifyWithin_of_pastified (f.pastified_pastifyWithin n) (.inl rfl)
    _ = past := bare_eq_self (f.horizons_pastifyWithin n)

end Formula

end SignalLogic
