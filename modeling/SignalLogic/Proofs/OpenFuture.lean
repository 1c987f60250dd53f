import SignalLogic.Proofs.LookAhead

/-!
# Future operators that pastification keeps

The future operators of a pastified formula are those of the formula that have no
finite window, in the same pre-order. So the result looks into the past alone, and
has the horizon zero, unless there is such an operator.
-/

namespace SignalLogic.Formula

/-- What tells an occurrence of an operator in a formula: the operator and its window. -/
def occurrence (f : Formula) : Operator × Option Interval :=
  (f.operator, f.window?)

/-- The future operators of a formula in pre-order. -/
def futures (f : Formula) : List (Operator × Option Interval) :=
  (f.subformulas.filter isFuture).map occurrence

/-- The future operators without a finite window in pre-order. -/
def openFutures (f : Formula) : List (Operator × Option Interval) :=
  (f.subformulas.filter isOpenFuture).map occurrence

theorem isFuture_of_isOpenFuture {f : Formula} (h : f.isOpenFuture = true) :
    f.isFuture = true := by
  simp [isOpenFuture] at h
  exact h.1

/-- Whether an operator is open can be told from its occurrence. -/
theorem isOpenFuture_congr {f g : Formula} (h : f.occurrence = g.occurrence) :
    f.isOpenFuture = g.isOpenFuture := by
  obtain ⟨ho, hw⟩ := Prod.mk.inj h
  simp [isOpenFuture, isFuture, ho, hw]

theorem futures_leaf (op : LeafOp) (h : Option Offset) : (leaf op h).futures = [] := by
  cases op <;> rfl

/-- The future operators below a root come after the root itself. -/
theorem futures_unary (op : UnaryOp) (operand : Formula) (h : Option Offset) :
    (unary op operand h).futures =
      (if op.operator.isFuture then [(op.operator, op.window?)] else []) ++ operand.futures := by
  cases hf : op.operator.isFuture <;>
    simp [futures, subformulas, isFuture, operator, occurrence, window?, hf]

theorem futures_binary (op : BinaryOp) (left right : Formula) (h : Option Offset) :
    (binary op left right h).futures =
      (if op.operator.isFuture then [(op.operator, op.window?)] else []) ++
        (left.futures ++ right.futures) := by
  cases hf : op.operator.isFuture <;>
    simp [futures, subformulas, isFuture, operator, occurrence, window?, hf]

/-- A unary root is open exactly if it is a future operator that keeps its place. -/
theorem openFutures_unary (op : UnaryOp) (operand : Formula) (h : Option Offset) :
    (unary op operand h).openFutures =
      (if op.operator.isFuture && op.lookAhead?.isNone then [(op.operator, op.window?)] else []) ++
        operand.openFutures := by
  have hroot : (unary op operand h).isOpenFuture =
      (op.operator.isFuture && op.lookAhead?.isNone) := by
    have hr : op.reach?.isSome = op.lookAhead?.isSome := by
      rw [← UnaryOp.lookAhead?_reach, Option.isSome_map]
    have := isOpenFuture_unary op operand h
    rw [hr] at this
    cases hf : op.operator.isFuture <;> cases ha : op.lookAhead? <;> simp_all
  cases hf : (op.operator.isFuture && op.lookAhead?.isNone) <;>
    simp [openFutures, subformulas, operator, occurrence, window?, hroot, hf]

/-- A binary root is open exactly if it is a future operator that keeps its place. -/
theorem openFutures_binary (op : BinaryOp) (left right : Formula) (h : Option Offset) :
    (binary op left right h).openFutures =
      (if op.operator.isFuture && op.lookAhead?.isNone then [(op.operator, op.window?)] else []) ++
        (left.openFutures ++ right.openFutures) := by
  have hroot : (binary op left right h).isOpenFuture =
      (op.operator.isFuture && op.lookAhead?.isNone) := by
    have hr : op.reach?.isSome = op.lookAhead?.isSome := by
      rw [← BinaryOp.lookAhead?_reach, Option.isSome_map]
    have := isOpenFuture_binary op left right h
    rw [hr] at this
    cases hf : op.operator.isFuture <;> cases ha : op.lookAhead? <;> simp_all
  cases hf : (op.operator.isFuture && op.lookAhead?.isNone) <;>
    simp [openFutures, subformulas, operator, occurrence, window?, hroot, hf]

/-- A delay adds no future operator. -/
theorem futures_delayed (budget : Offset) (f : Formula) :
    (f.delayed budget).futures = f.futures := by
  unfold delayed
  split
  · rfl
  · rw [unaryTemporal, futures_unary]
    rfl

/-- The future operators that are left are the open ones, in the same order. -/
theorem futures_pastifyWithin (f : Formula) (budget : Offset) :
    (f.pastifyWithin budget).value.futures = f.openFutures := by
  induction f generalizing budget with
  | leaf op h =>
      cases op with
      | constant value backend => rfl
      | «variable» v backend => exact futures_delayed budget _
  | unary op operand h ih =>
      cases ha : op.lookAhead? with
      | none =>
          rw [value_pastifyWithin_unary ha, futures_unary, openFutures_unary, ih]
          simp [ha]
      | some ahead =>
          obtain ⟨op, i, rfl, hp, -, -⟩ := UnaryOp.lookAhead?_eq_some ha
          have hpast := UnaryTemporal.isFuture_of_past? hp
          rw [value_pastifyWithin_ahead ha, openFutures_unary]
          split
          · simp [ha, ih]
          · simp [ha, ih, unaryTemporal, futures_unary, UnaryOp.operator, Operator.isFuture, hpast]
  | binary op left right h ihl ihr =>
      cases ha : op.lookAhead? with
      | none =>
          rw [value_pastifyWithin_binary ha, futures_binary, openFutures_binary, ihl, ihr]
          simp [ha]
      | some ahead =>
          rw [value_pastifyWithin_until ha, openFutures_binary]
          simp [ha, ihl, ihr, binaryTemporal, futures_binary, BinaryOp.operator,
            Operator.isFuture, BinaryTemporal.isFuture]

/-- When all future operators occur in some formula as open ones, they are open themselves. -/
theorem isOpenFuture_of_futures {f g s : Formula} (h : f.futures = g.openFutures)
    (hs : s ∈ f.subformulas) (hfuture : s.isFuture = true) : s.isOpenFuture = true := by
  have hmem : s.occurrence ∈ f.futures :=
    List.mem_map_of_mem (List.mem_filter.mpr ⟨hs, hfuture⟩)
  rw [h] at hmem
  obtain ⟨s', hs', he⟩ := List.mem_map.mp hmem
  rw [← isOpenFuture_congr he]
  exact (List.mem_filter.mp hs').2

/-- Without future operators nothing is looked ahead. -/
theorem reach_eq_zero_of_futures {f : Formula} (h : f.futures = []) : f.reach = 0 := by
  induction f with
  | leaf op h' => rfl
  | unary op operand h' ih =>
      rw [futures_unary, List.append_eq_nil_iff] at h
      have hf : op.operator.isFuture = false := by simpa using h.1
      simp [reach, UnaryOp.reach, UnaryOp.reach?_of_not_future hf, ih h.2]
  | binary op left right h' ihl ihr =>
      rw [futures_binary, List.append_eq_nil_iff, List.append_eq_nil_iff] at h
      have hf : op.operator.isFuture = false := by simpa using h.1
      simp [reach, BinaryOp.reach, BinaryOp.reach?_of_not_future hf, ihl h.2.1, ihr h.2.2]

theorem isPastOnly_iff_futures (f : Formula) : f.isPastOnly = true ↔ f.futures = [] := by
  simp [isPastOnly, nodes_eq_subformulas, futures, List.filter_eq_nil_iff]

theorem closed_iff_openFutures (f : Formula) : f.Closed ↔ f.openFutures = [] := by
  simp [Closed, openFutures, List.filter_eq_nil_iff]

/-- A formula whose future operators are all open has the horizon zero or none. -/
theorem horizon_of_futures_eq_openFutures {f : Formula} (h : f.futures = f.openFutures) :
    f.computeHorizon.value.horizon = if f.isPastOnly then some 0 else none := by
  rw [value_computeHorizon]
  split
  case isTrue hp =>
    have hf := f.isPastOnly_iff_futures.mp hp
    rw [horizon_annotate_eq_some_iff]
    exact ⟨f.closed_iff_openFutures.mpr (h ▸ hf), reach_eq_zero_of_futures hf⟩
  case isFalse hp =>
    rw [Option.eq_none_iff_forall_ne_some]
    intro horizon hs
    have hc := ((f.horizon_annotate_eq_some_iff horizon).mp hs).1
    exact hp (f.isPastOnly_iff_futures.mpr (h.trans (f.closed_iff_openFutures.mp hc)))

/-- Under every budget, pastification leaves no bounded future operator and keeps the
open ones with their windows, in order. So the result looks into the past alone, with
the horizon zero, exactly if there was no open one; otherwise it has no horizon. -/
theorem futures_pastify (f : Formula) (budget : Offset) :
    let past := (f.pastifyWithHorizon budget).value
    (¬ ∃ g ∈ past.nodes, g.isBoundedFuture = true) ∧
    (past.nodes.filter isFuture).map occurrence = (f.nodes.filter isOpenFuture).map occurrence ∧
    (past.isPastOnly = true ↔ ¬ ∃ g ∈ f.nodes, g.isOpenFuture = true) ∧
    past.computeHorizon.value.horizon = if past.isPastOnly then some 0 else none := by
  intro past
  have hfutures : past.futures = f.openFutures := futures_pastifyWithin f budget
  have hopen : ∀ g ∈ past.subformulas, g.isFuture = true → g.isOpenFuture = true :=
    fun g hg => isOpenFuture_of_futures hfutures hg
  have hself : past.futures = past.openFutures := by
    simp only [futures, openFutures]
    congr 1
    apply List.filter_congr
    intro g hg
    exact Bool.eq_iff_iff.mpr ⟨hopen g hg, isFuture_of_isOpenFuture⟩
  refine ⟨?_, ?_, ?_, horizon_of_futures_eq_openFutures hself⟩
  · rintro ⟨g, hg, hb⟩
    rw [nodes_eq_subformulas] at hg
    simp only [isBoundedFuture, Bool.and_eq_true] at hb
    have := hopen g hg hb.1
    simp [isOpenFuture, hb.2] at this
  · rw [nodes_eq_subformulas, nodes_eq_subformulas]
    exact hfutures
  · rw [isPastOnly_iff_futures, hfutures, ← closed_iff_openFutures, nodes_eq_subformulas]
    simp [Closed]

end SignalLogic.Formula
