import SignalLogic.Proofs.Assembly.Equality
import SignalLogic.Proofs.Canonicity
import SignalLogic.Proofs.FixedPoints

/-!
# Equality is a congruence

Equality of formulas forgets the horizons and the sign of a zero, and a NaN equals itself.
So it is an equivalence, and nothing that can be done to formulas brings back what it
forgets: the passes take equal formulas to equal ones, and the measures agree on them. The
one horizon that matters is the one at the root, which pastification takes for its budget.
-/

namespace SignalLogic

open Grammar

namespace LeafOp

variable {op op' op'' : LeafOp}

theorem beq_refl (op : LeafOp) : (op == op) = true := by
  cases op with
  | constant x b => simp [BEq.beq, LeafOp.beq, Value.same_refl]
  | «variable» v b => simp [BEq.beq, LeafOp.beq]

theorem beq_symm (h : (op == op') = true) : (op' == op) = true := by
  cases op' with
  | constant y b =>
      obtain ⟨x, rfl⟩ := eq_constant_of_beq h
      have hsame : Value.same x y = true := (Bool.and_eq_true_iff.mp h).1
      simp [BEq.beq, LeafOp.beq, Value.same_symm hsame]
  | «variable» v b =>
      rw [eq_variable_of_beq h]
      exact beq_refl _

theorem beq_trans (h : (op == op') = true) (h' : (op' == op'') = true) : (op == op'') = true := by
  cases op'' with
  | constant z b =>
      obtain ⟨y, rfl⟩ := eq_constant_of_beq h'
      obtain ⟨x, rfl⟩ := eq_constant_of_beq h
      have hsame : Value.same x y = true := (Bool.and_eq_true_iff.mp h).1
      have hsame' : Value.same y z = true := (Bool.and_eq_true_iff.mp h').1
      simp [BEq.beq, LeafOp.beq, Value.same_trans hsame hsame']
  | «variable» v b => rwa [eq_variable_of_beq h'] at h

end LeafOp

namespace Formula

variable {f g k : Formula}

namespace Alike

theorem refl (f : Formula) : Alike f f := by
  induction f with
  | leaf op h => exact .leaf op.beq_refl
  | unary op operand h ih => exact .unary op ih
  | binary op left right h ihl ihr => exact .binary op ihl ihr

theorem symm (h : Alike f g) : Alike g f := by
  induction h with
  | leaf hop => exact .leaf (LeafOp.beq_symm hop)
  | unary op _ ih => exact .unary op ih
  | binary op _ _ ihl ihr => exact .binary op ihl ihr

theorem trans (h : Alike f g) (h' : Alike g k) : Alike f k := by
  induction h generalizing k with
  | leaf hop =>
      cases h' with
      | leaf hop' => exact .leaf (LeafOp.beq_trans hop hop')
  | unary op _ ih =>
      cases h' with
      | unary _ hf => exact .unary op (ih hf)
  | binary op _ _ ihl ihr =>
      cases h' with
      | binary _ hl hr => exact .binary op (ihl hl) (ihr hr)

end Alike

/-- Equality of formulas is an equivalence, also where constants are no numbers. -/
theorem beq_equivalence : Equivalence fun f g : Formula => (f == g) = true where
  refl f := alike_iff_beq.mp (.refl f)
  symm h := alike_iff_beq.mp (alike_iff_beq.mpr h).symm
  trans h h' := alike_iff_beq.mp ((alike_iff_beq.mpr h).trans (alike_iff_beq.mpr h'))

namespace Alike

/-- Alike formulas are pastified alike under every budget. -/
theorem pastifyWithin (h : Alike f g) (budget : Offset) :
    Alike (f.pastifyWithin budget).value (g.pastifyWithin budget).value := by
  induction h generalizing budget with
  | @leaf op op' _ _ hop =>
      cases op' with
      | constant y b =>
          obtain ⟨x, rfl⟩ := LeafOp.eq_constant_of_beq hop
          exact .leaf hop
      | «variable» v b =>
          rw [LeafOp.eq_variable_of_beq hop]
          exact .refl _
  | unary op _ ih =>
      cases ha : op.lookAhead? with
      | none =>
          rw [value_pastifyWithin_unary ha, value_pastifyWithin_unary ha]
          exact .unary op (ih budget)
      | some ahead =>
          rw [value_pastifyWithin_ahead ha, value_pastifyWithin_ahead ha]
          dsimp only
          split
          · exact ih _
          · exact .unary _ (ih _)
  | binary op _ _ ihl ihr =>
      cases ha : op.lookAhead? with
      | none =>
          rw [value_pastifyWithin_binary ha, value_pastifyWithin_binary ha]
          exact .binary op (ihl budget) (ihr budget)
      | some ahead =>
          rw [value_pastifyWithin_until ha, value_pastifyWithin_until ha]
          exact .binary _ (ihl _) (ihr _)

/-- The paths of alike formulas ask for the same horizon. -/
theorem demand_eq (h : Alike f g) : f.demand = g.demand := by
  induction h with
  | leaf => rw [demand_leaf, demand_leaf]
  | unary op _ ih => rw [demand_unary, demand_unary, ih]
  | binary op _ _ ihl ihr => rw [demand_binary, demand_binary, ihl, ihr]

/-- So do the paths of their nodes, one after the other. -/
theorem demands_eq (h : Alike f g) : f.subformulas.map demand = g.subformulas.map demand := by
  induction h with
  | leaf hop =>
      rw [subformulas, subformulas, List.map_singleton, List.map_singleton,
        (Alike.leaf hop).demand_eq]
  | unary op hf ih =>
      rw [subformulas, subformulas, List.map_cons, List.map_cons, ih,
        (Alike.unary op hf).demand_eq]
  | binary op hl hr ihl ihr =>
      rw [subformulas, subformulas, List.map_cons, List.map_cons, List.map_append,
        List.map_append, ihl, ihr, (Alike.binary op hl hr).demand_eq]

theorem depth_eq (h : Alike f g) : f.depth = g.depth := by
  induction h with
  | leaf => rfl
  | unary op _ ih => rw [depth, depth, ih]
  | binary op _ _ ihl ihr => rw [depth, depth, ihl, ihr]

theorem isPastOnly_eq (h : Alike f g) : f.isPastOnly = g.isPastOnly := by
  rw [Bool.eq_iff_iff, isPastOnly_iff_futures, isPastOnly_iff_futures, h.futures_eq]

end Alike

/-- The horizon pass stores in pre-order what the paths of the nodes ask for. -/
theorem horizons_computeHorizon (f : Formula) :
    f.computeHorizon.value.nodes.map horizon = f.subformulas.map demand := by
  simp [value_annotate, nodes_eq_subformulas, subformulas_mapHorizon]

/-- What pastification of two formulas comes to: neither has a horizon, or the results are
equal. -/
inductive SameOutcome : Except UndefinedHorizon (Logged Formula) →
    Except UndefinedHorizon (Logged Formula) → Prop
  | undefined {e e' : UndefinedHorizon} : SameOutcome (.error e) (.error e')
  | pastified {past past' : Logged Formula} (h : (past.value == past'.value) = true) :
      SameOutcome (.ok past) (.ok past')

theorem Alike.pastify (h : Alike f g) (hroot : f.horizon = g.horizon) :
    SameOutcome f.pastify g.pastify := by
  rw [Formula.pastify, Formula.pastify, hroot]
  cases g.horizon with
  | none => exact .undefined
  | some horizon => exact .pastified (alike_iff_beq.mp (h.pastifyWithin horizon))

/-- A formula without horizons is one where every node has been given none. -/
theorem bare_eq_mapHorizon (f : Formula) : bare f = f.mapHorizon fun _ => none := by
  induction f with
  | leaf op h => rfl
  | unary op operand h ih => rw [bare, mapHorizon, ih]
  | binary op left right h ihl ihr => rw [bare, mapHorizon, ihl, ihr]

/-- Formulas that differ in the horizons below their roots are pastified as one, and the same
is reported about them. -/
theorem pastify_eq_of_bare_eq (h : bare f = bare g) (hroot : f.horizon = g.horizon) :
    f.pastify = g.pastify := by
  have hname : f.name = g.name := by rw [name, name, ← chars_bare f, h, chars_bare]
  have hpass (budget : Offset) : f.pastifyWithin budget = g.pastifyWithin budget := by
    rw [bare_eq_mapHorizon, bare_eq_mapHorizon] at h
    rw [← pastifyWithin_mapHorizon (fun _ => none) f, h, pastifyWithin_mapHorizon]
  rw [Formula.pastify, Formula.pastify, hroot]
  cases g.horizon with
  | none => rw [hname]
  | some horizon => simp only [pastifyWithHorizon, hname, hpass]

/-- Neither the passes nor the measures tell two formulas apart. -/
structure Indistinguishable (f g : Formula) : Prop where
  /-- Under every budget the two are pastified to equal formulas. -/
  pastified (n : Offset) :
    ((f.pastifyWithHorizon n).value == (g.pastifyWithHorizon n).value) = true
  /-- So they are when every node is taken apart and assembled again, with an evaluator that is
  inherited where the operations agree. -/
  assembled (n : Offset) : ∃ s t, (f.tree.pastifyWithHorizon n).run.value = .ok s ∧
    (g.tree.pastifyWithHorizon n).run.value = .ok t ∧ (s == t) = true
  /-- The horizon pass finds the same horizon. -/
  horizon : f.computeHorizon.value.horizon = g.computeHorizon.value.horizon
  /-- It stores the same horizons in pre-order. -/
  horizons : f.computeHorizon.value.nodes.map Formula.horizon =
    g.computeHorizon.value.nodes.map Formula.horizon
  size : f.size = g.size
  depth : f.depth = g.depth
  isPastOnly : f.isPastOnly = g.isPastOnly
  /-- With the same horizon at the roots, pastification under it fails on both or yields equal
  formulas. -/
  outcome (hroot : f.horizon = g.horizon) : SameOutcome f.pastify g.pastify

theorem Alike.indistinguishable (h : Alike f g) : Indistinguishable f g where
  pastified n := alike_iff_beq.mp (h.pastifyWithin n)
  assembled n := by
    refine ⟨_, _, f.value_pastifyWithHorizon_tree n, g.value_pastifyWithHorizon_tree n, ?_⟩
    rw [tree_beq_tree]
    exact alike_iff_beq.mp (h.pastifyWithin n)
  horizon := by
    rw [value_computeHorizon, value_computeHorizon, horizon_annotate, horizon_annotate,
      h.demand_eq]
  horizons := by rw [horizons_computeHorizon, horizons_computeHorizon, h.demands_eq]
  size := h.size_eq
  depth := h.depth_eq
  isPastOnly := h.isPastOnly_eq
  outcome hroot := h.pastify hroot

/-- Equality is an equivalence, and it is a congruence: equal formulas cannot be told apart,
whatever horizons are stored in them and whatever signs their zeros have. In particular no
horizon below the root influences pastification, neither its result nor what it reports. -/
theorem congruence_of_beq (h : (f == g) = true) :
    Equivalence (fun f g : Formula => (f == g) = true) ∧
    Indistinguishable f g ∧
    (f.tree == g.tree) = true ∧
    ∀ k, bare k = bare f → k.horizon = f.horizon → k.pastify = f.pastify :=
  ⟨beq_equivalence, (alike_iff_beq.mpr h).indistinguishable, (tree_beq_tree f g).trans h,
    fun _ hbare hroot => pastify_eq_of_bare_eq hbare hroot⟩

/-- The sum of a signal and a zero comes below a limit within two samples. -/
def settled (zero limit : Value) (below : Option Offset) : Formula :=
  unary (.temporal .eventually (some (.upTo 2)))
    (binary (.comparison .atMost .reference)
      (binary (.arithmetic .addition .native) (ofVariable (.named "x")) (ofValue zero) below)
      (ofValue limit) below)
    (some 2)

/-- Neither the sign of the zero nor a horizon below the root shows, and the limit, a NaN,
keeps no formula from being equal to itself. -/
theorem congruence_of_beq_settled :
    let limit := Binary64.ofCode false (Binary64.infinity + 1)
    let positive := settled (Binary64.ofCode false 0) limit
    let negative := settled (Binary64.ofCode true 0) limit
    (positive none == negative (some 7)) = true ∧
      Indistinguishable (positive none) (negative (some 7)) ∧
      (positive (some 7)).pastify = (positive none).pastify := by
  intro limit positive negative
  have hbeq : (positive none == negative (some 7)) = true := by decide +kernel
  have h := congruence_of_beq hbeq
  exact ⟨hbeq, h.2.1, h.2.2.2 (positive (some 7)) rfl rfl⟩

end Formula

end SignalLogic
