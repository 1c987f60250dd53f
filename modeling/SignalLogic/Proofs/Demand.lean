import SignalLogic.Pastification
import SignalLogic.Proofs.Reach

/-!
# The horizon pass in closed form

The horizon pass stores at every node what the paths below the node ask for, whatever
was stored before, and changes nothing else. It reports the nodes that it leaves
without a horizon, operands before the node itself, and then the root.
-/

namespace SignalLogic.Formula

/-- The horizon that the paths of a formula ask for: the greatest sum of reaches, unless
some future operator has no finite window or the sum exceeds the greatest offset. -/
def demand (f : Formula) : Option Offset :=
  if f.subformulas.any isOpenFuture then none else f.pathReaches.max?.bind Offset.ofNat?

/-- The same formula where every node stores the horizon that a function gives it. -/
def mapHorizon (g : Formula → Option Offset) : Formula → Formula
  | leaf op h => leaf op (g (leaf op h))
  | unary op operand h => unary op (operand.mapHorizon g) (g (unary op operand h))
  | binary op left right h =>
      binary op (left.mapHorizon g) (right.mapHorizon g) (g (binary op left right h))

/-- A formula and all formulas below it, each after its operands and the left operand
before the right one. -/
def postOrder : Formula → List Formula
  | leaf op h => [leaf op h]
  | unary op operand h => operand.postOrder ++ [unary op operand h]
  | binary op left right h => left.postOrder ++ right.postOrder ++ [binary op left right h]

section mapHorizon

variable (g : Formula → Option Offset)

@[simp] theorem horizon_mapHorizon (f : Formula) : (f.mapHorizon g).horizon = g f := by
  cases f <;> rfl

/-- Horizons do not show in names. -/
@[simp] theorem chars_mapHorizon (f : Formula) : (f.mapHorizon g).chars = f.chars := by
  induction f with
  | leaf op h => rfl
  | unary op operand h ih => simp [mapHorizon, chars, ih]
  | binary op left right h ihl ihr => simp [mapHorizon, chars, ihl, ihr]

@[simp] theorem name_mapHorizon (f : Formula) : (f.mapHorizon g).name = f.name := by
  simp [name]

theorem subformulas_mapHorizon (f : Formula) :
    (f.mapHorizon g).subformulas = f.subformulas.map (mapHorizon g) := by
  induction f with
  | leaf op h => rfl
  | unary op operand h ih => simp [mapHorizon, subformulas, ih]
  | binary op left right h ihl ihr => simp [mapHorizon, subformulas, ihl, ihr]

end mapHorizon

/-- The greatest sum of reaches on a path is the reach of the formula. -/
theorem max?_pathReaches (f : Formula) : f.pathReaches.max? = some f.reach :=
  List.max?_eq_some_iff.mpr
    ⟨f.reach_mem_pathReaches, (f.pathReaches_le_iff f.reach).mpr (Nat.le_refl _)⟩

theorem demand_eq_some_iff (f : Formula) (horizon : Offset) :
    f.demand = some horizon ↔ f.Closed ∧ f.reach = horizon.toNat := by
  unfold demand
  split
  case isTrue h =>
    obtain ⟨v, hv, hopen⟩ := List.any_eq_true.mp h
    simp only [reduceCtorEq, false_iff, not_and]
    intro hc
    simp [hc v hv] at hopen
  case isFalse h =>
    have hc : f.Closed := by simpa [Closed] using h
    simp [max?_pathReaches, Offset.ofNat?_eq_some_iff, hc]

/-- The pass stores at the root what the paths ask for. -/
theorem horizon_annotate (f : Formula) : f.annotate.value.horizon = f.demand := by
  ext horizon
  rw [horizon_annotate_eq_some_iff, demand_eq_some_iff]

@[simp] theorem demand_leaf (op : LeafOp) (h : Option Offset) : (leaf op h).demand = some 0 := by
  rw [← horizon_annotate, annotate, value_settle, horizon_withHorizon]

/-- What the paths ask for is what the operator asks for beyond the paths of its operand. -/
theorem demand_unary (op : UnaryOp) (operand : Formula) (h : Option Offset) :
    (unary op operand h).demand = op.horizon operand.demand := by
  rw [← horizon_annotate, ← horizon_annotate operand, annotate, Logged.value_bind, value_settle,
    horizon_withHorizon]

/-- What the paths ask for is what the operator asks for beyond the paths of its operands. -/
theorem demand_binary (op : BinaryOp) (left right : Formula) (h : Option Offset) :
    (binary op left right h).demand = op.horizon (Horizon.join left.demand right.demand) := by
  rw [← horizon_annotate, ← horizon_annotate left, ← horizon_annotate right, annotate,
    Logged.value_bind, Logged.value_bind, value_settle, horizon_withHorizon]

/-- The pass stores at every node what the paths below it ask for, and nothing else. -/
theorem value_annotate (f : Formula) : f.annotate.value = f.mapHorizon demand := by
  induction f with
  | leaf op h => rw [annotate, value_settle, withHorizon, mapHorizon, demand_leaf]
  | unary op operand h ih =>
      rw [annotate, Logged.value_bind, value_settle, ih, horizon_mapHorizon, withHorizon,
        mapHorizon, demand_unary]
  | binary op left right h ihl ihr =>
      rw [annotate, Logged.value_bind, Logged.value_bind, value_settle, ihl, ihr,
        horizon_mapHorizon, horizon_mapHorizon, withHorizon, mapHorizon, demand_binary]

/-- Pastification reads no stored horizon below the root. -/
theorem pastifyWithin_mapHorizon (g : Formula → Option Offset) (f : Formula) (budget : Offset) :
    (f.mapHorizon g).pastifyWithin budget = f.pastifyWithin budget := by
  have hname (f : Formula) : (f.mapHorizon g).name = f.name := f.name_mapHorizon g
  induction f generalizing budget with
  | leaf op h => cases op <;> rfl
  | unary op operand h ih =>
      have := hname (unary op operand h)
      rw [mapHorizon] at this ⊢
      simp only [pastifyWithin, this, ih]
  | binary op left right h ihl ihr =>
      have := hname (binary op left right h)
      rw [mapHorizon] at this ⊢
      simp only [pastifyWithin, this, ihl, ihr]

/-- The horizon pass prepares a formula for pastification under its own horizon. -/
theorem pastify_computeHorizon {f : Formula} {horizon : Offset}
    (h : f.computeHorizon.value.horizon = some horizon) :
    f.computeHorizon.value.pastify = .ok (f.pastifyWithHorizon horizon) := by
  simp only [pastify, h]
  simp only [pastifyWithHorizon, value_computeHorizon, value_annotate, name_mapHorizon,
    pastifyWithin_mapHorizon]

/-- The report on a node, as the part of the log that belongs to it. -/
theorem report_root (f : Formula) :
    (if f.demand = none then [Record.horizonUndefined f.name] else []) =
      ([f].filter fun v => v.demand.isNone).map fun v => .horizonUndefined v.name := by
  cases h : f.demand <;> simp [h]

/-- The pass reports the nodes whose paths ask for no horizon. -/
theorem records_annotate (f : Formula) :
    f.annotate.records =
      (f.postOrder.filter fun v => v.demand.isNone).map fun v => .horizonUndefined v.name := by
  induction f with
  | leaf op h => simp [annotate, records_settle, postOrder]
  | unary op operand h ih =>
      have hname : (unary op operand.annotate.value h).name = (unary op operand h).name := by
        simp [name, chars, value_annotate]
      rw [annotate, Logged.records_bind, records_settle, horizon_annotate, ← demand_unary, hname,
        report_root, ih, postOrder, List.filter_append, List.map_append]
  | binary op left right h ihl ihr =>
      have hname : (binary op left.annotate.value right.annotate.value h).name =
          (binary op left right h).name := by
        simp [name, chars, value_annotate]
      rw [annotate, Logged.records_bind, Logged.records_bind, records_settle, horizon_annotate,
        horizon_annotate, ← demand_binary, hname, report_root, ihl, ihr, postOrder,
        List.filter_append, List.filter_append, List.map_append, List.map_append,
        List.append_assoc]

/-- What is said about a formula when all its nodes have got their horizons. -/
def summary (f : Formula) : Record :=
  match f.demand with
  | some horizon => .horizonComputed horizon f.name
  | none => .horizonUnbounded f.name

theorem level_summary (f : Formula) : f.summary.level = .debug := by
  unfold summary
  split <;> rfl

theorem records_computeHorizon (f : Formula) :
    f.computeHorizon.records = f.annotate.records ++ [f.summary] := by
  have hname : f.annotate.value.name = f.name := by rw [value_annotate, name_mapHorizon]
  cases h : f.demand <;> simp [computeHorizon, summary, horizon_annotate, h, hname]

/-- The horizon pass in closed form. Whatever was stored before, every node stores in the
end what the paths below it ask for, the root among them, and nothing but horizons has
changed. The log holds a trace record for each node that is left without a horizon, operands
before the node itself, and then one debug record on the root. -/
theorem computeHorizon_stores_demand (f : Formula) :
    let result := f.computeHorizon
    let undefinedNodes := f.postOrder.filter fun v => v.demand.isNone
    result.value = f.mapHorizon demand ∧
    result.value.nodes.map horizon = f.nodes.map demand ∧
    result.value.horizon = f.demand ∧
    result.records = (undefinedNodes.map fun v => .horizonUndefined v.name) ++ [f.summary] ∧
    result.records.map Record.level =
      List.replicate undefinedNodes.length .trace ++ [.debug] := by
  intro result undefinedNodes
  have hvalue : result.value = f.mapHorizon demand :=
    f.value_computeHorizon.trans f.value_annotate
  have hrecords : result.records =
      (undefinedNodes.map fun v => .horizonUndefined v.name) ++ [f.summary] := by
    rw [f.records_computeHorizon, f.records_annotate]
  refine ⟨hvalue, ?_, ?_, hrecords, ?_⟩
  · simp [hvalue, nodes_eq_subformulas, subformulas_mapHorizon]
  · rw [hvalue, horizon_mapHorizon]
  · have htrace (v : Formula) : (Record.horizonUndefined v.name).level = .trace := rfl
    simp [hrecords, level_summary, htrace, Function.comp_def]

end SignalLogic.Formula
