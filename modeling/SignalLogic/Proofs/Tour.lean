import SignalLogic.Proofs.Demand
import SignalLogic.Proofs.Shifts
import Mathlib

/-!
# Tours through formulas

A tour enters every node before its operands and leaves it after them, operands from left to
right. What pastification reports follows the tour: a window is clamped when its node is entered,
and an operator is left out when its node is left.
-/

namespace SignalLogic

/-- A moment of a tour. With a node that is entered come the nodes above it. -/
inductive Visit where
  | enter (above : List Formula) (f : Formula)
  | leave (f : Formula)

namespace Visit

/-- The node that is entered. -/
def entered? : Visit → Option Formula
  | enter _ f => some f
  | leave _ => none

/-- The node that is left. -/
def left? : Visit → Option Formula
  | enter _ _ => none
  | leave f => some f

end Visit

namespace Formula

/-- How far the root looks ahead, if that is finite. -/
def rootReach? (f : Formula) : Option Offset :=
  if f.isFuture then f.window?.bind (·.upper.offset?) else none

/-- The upper ends of the windows through which the given nodes look ahead, added up; windows
without a finite end are left out. -/
def spent (above : List Formula) : Nat :=
  (above.filterMap fun f => f.rootReach?.map UInt64.toNat).sum

end Formula

/-- What is reported at a moment of a tour when there are `n` samples to wait for. A node that is
entered is reported when its window ends beyond what the windows above it leave of them, and a
node that is left when its window holds one offset. -/
def Visit.records (n : Nat) : Visit → List Record
  | enter above f =>
      match f.rootReach? with
      | some upper =>
          if n - Formula.spent above < upper.toNat then
            [.clamping (.ofNat (n - Formula.spent above)) f.name]
          else []
      | none => []
  | leave f => if f.isInstant then [.eliding f.name] else []

theorem Visit.level_of_mem_records {n : Nat} {v : Visit} {r : Record} (h : r ∈ v.records n) :
    r.level = .trace := by
  unfold records at h
  repeat' split at h
  all_goals simp only [List.mem_singleton, List.not_mem_nil] at h
  all_goals rw [h]; rfl

namespace Formula

variable {n : Nat} {budget : Offset} {above : List Formula} {f : Formula}

/-- The tour through a formula that stands below other nodes. -/
def tour (above : List Formula) : Formula → List Visit
  | leaf op h => [.enter above (leaf op h), .leave (leaf op h)]
  | unary op operand h =>
      .enter above (unary op operand h) ::
        (operand.tour (unary op operand h :: above) ++ [.leave (unary op operand h)])
  | binary op left right h =>
      .enter above (binary op left right h) ::
        (left.tour (binary op left right h :: above) ++
          (right.tour (binary op left right h :: above) ++ [.leave (binary op left right h)]))

/-- A tour enters the nodes in pre-order. -/
theorem entered_tour (f : Formula) : (f.tour above).filterMap Visit.entered? = f.nodes := by
  rw [nodes_eq_subformulas]
  induction f generalizing above with
  | leaf op h => rfl
  | unary op operand h ih =>
      simp [tour, List.filterMap_cons, Visit.entered?, subformulas, ih]
  | binary op left right h ihl ihr =>
      simp [tour, List.filterMap_cons, Visit.entered?, subformulas, ihl, ihr]

/-- A tour leaves the nodes in post-order. -/
theorem left_tour (f : Formula) : (f.tour above).filterMap Visit.left? = f.postOrder := by
  induction f generalizing above with
  | leaf op h => rfl
  | unary op operand h ih =>
      simp [tour, List.filterMap_cons, Visit.left?, postOrder, ih]
  | binary op left right h ihl ihr =>
      simp [tour, List.filterMap_cons, Visit.left?, postOrder, ihl, ihr]

theorem rootReach?_unary (op : UnaryOp) (operand : Formula) (h : Option Offset) :
    (unary op operand h).rootReach? = op.lookAhead?.map UnaryLookAhead.reach :=
  op.lookAhead?_reach.symm

theorem rootReach?_binary (op : BinaryOp) (left right : Formula) (h : Option Offset) :
    (binary op left right h).rootReach? = op.lookAhead?.map BinaryLookAhead.reach :=
  op.lookAhead?_reach.symm

/-- Below a node there is left what its window leaves of what is left at the node. -/
theorem toNat_monus_of_spent {upper : Offset} (hf : f.rootReach? = some upper)
    (hbudget : budget.toNat = n - spent above) :
    (budget.monus upper).toNat = n - spent (f :: above) := by
  rw [toNat_monus_of_eq hbudget]
  simp [spent, hf, Nat.add_comm]

theorem spent_cons_of_none (hf : f.rootReach? = none) : spent (f :: above) = spent above := by
  simp [spent, hf]

theorem records_enter {upper : Offset} (hf : f.rootReach? = some upper)
    (hbudget : budget.toNat = n - spent above) :
    (Visit.enter above f).records n = if budget < upper then [.clamping budget f.name] else [] := by
  simp only [Visit.records, hf, ← hbudget, UInt64.ofNat_toNat, UInt64.lt_iff_toNat_lt]

theorem records_enter_of_none (hf : f.rootReach? = none) :
    (Visit.enter above f).records n = [] := by
  simp only [Visit.records, hf]

theorem records_leave_unary {op : UnaryOp} {operand : Formula} {h : Option Offset} :
    (Visit.leave (unary op operand h)).records n =
      if op.lookAhead?.any fun ahead => ahead.width = 0 then
        [.eliding (unary op operand h).name]
      else [] := by
  rw [Visit.records, isInstant_unary]

theorem records_leave_binary {op : BinaryOp} {left right : Formula} {h : Option Offset} :
    (Visit.leave (binary op left right h)).records n = [] := by
  rw [Visit.records, isInstant_binary, if_neg Bool.false_ne_true]

/-- Under what the windows above leave of the samples the reports follow the tour. -/
theorem records_pastifyWithin (f : Formula) (hbudget : budget.toNat = n - spent above) :
    (f.pastifyWithin budget).records = (f.tour above).flatMap (Visit.records n) := by
  induction f generalizing budget above with
  | leaf op h => cases op <;> rfl
  | unary op operand h ih =>
      simp only [tour, List.flatMap_cons, List.flatMap_append, List.flatMap_nil, List.append_nil,
        records_leave_unary]
      have hreach := rootReach?_unary op operand h
      cases ha : op.lookAhead? with
      | none =>
          rw [ha, Option.map_none] at hreach
          rw [records_pastifyWithin_unary ha, records_enter_of_none hreach,
            ih (hbudget.trans (by rw [spent_cons_of_none hreach]))]
          simp
      | some ahead =>
          rw [ha, Option.map_some] at hreach
          rw [records_pastifyWithin_ahead ha, records_enter hreach hbudget,
            ih (toNat_monus_of_spent hreach hbudget)]
          simp
  | binary op left right h ihl ihr =>
      simp only [tour, List.flatMap_cons, List.flatMap_append, List.flatMap_nil, List.append_nil,
        records_leave_binary]
      have hreach := rootReach?_binary op left right h
      cases ha : op.lookAhead? with
      | none =>
          rw [ha, Option.map_none] at hreach
          have hbelow := hbudget.trans (by rw [← spent_cons_of_none hreach])
          rw [records_pastifyWithin_binary ha, records_enter_of_none hreach, ihl hbelow,
            ihr hbelow, List.nil_append]
      | some ahead =>
          rw [ha, Option.map_some] at hreach
          have hbelow := toNat_monus_of_spent hreach hbudget
          rw [records_pastifyWithin_until ha, records_enter hreach hbudget, ihl hbelow,
            ihr hbelow, List.append_assoc]

/-- The log of pastification in closed form. One debug record names the formula and the horizon,
one names the result, and the trace records between them follow a tour that enters the nodes in
pre-order and leaves them in post-order, operands from left to right. On entering a node that
looks ahead through a bounded window, what the windows of that kind above it leave of the horizon
is reported if it is less than the upper end of its own window; on leaving an `eventually` or
`always`, that its window holds one offset; and nothing else. Taking every node apart and
assembling it again reports the same. -/
theorem records_pastifyWithHorizon_eq_tour (f : Formula) (n : Offset) :
    let result := f.pastifyWithHorizon n
    let traced := (f.tour []).flatMap (Visit.records n.toNat)
    result.records = .pastifying f.name n :: (traced ++ [.pastified result.value.name]) ∧
    result.records.map Record.level =
      .debug :: (List.replicate traced.length .trace ++ [.debug]) ∧
    (f.tour []).filterMap Visit.entered? = f.nodes ∧
    (f.tour []).filterMap Visit.left? = f.postOrder ∧
    (f.tree.pastifyWithHorizon n).run = ⟨.ok result.value.tree, result.records⟩ := by
  intro result traced
  have hrecords : result.records =
      .pastifying f.name n :: (traced ++ [.pastified result.value.name]) := by
    have hbudget : n.toNat = n.toNat - spent [] := rfl
    rw [records_pastifyWithHorizon, f.records_pastifyWithin hbudget]
    rfl
  refine ⟨hrecords, ?_, f.entered_tour, f.left_tour, ?_⟩
  · have htraced : traced.map Record.level = List.replicate traced.length .trace := by
      refine List.map_eq_replicate_iff.mpr fun r hr => ?_
      obtain ⟨v, -, hv⟩ := List.mem_flatMap.mp hr
      exact v.level_of_mem_records hv
    rw [hrecords, List.map_cons, List.map_append, htraced]
    rfl
  · have hrun : (f.tree.pastifyWithHorizon n).run.records = result.records := by
      rw [pastifyWithHorizon_tree]
      exact (Logged.records_map _ _).trans (Logged.records_map _ _)
    rw [← hrun, ← f.value_pastifyWithHorizon_tree n]

end Formula

end SignalLogic
