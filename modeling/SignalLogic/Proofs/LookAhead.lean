import SignalLogic.Pastification
import SignalLogic.Proofs.Reach

/-!
# Bounded looks ahead

The operators that pastification turns to the past are the bounded future ones. The
lemmas on values and on records open pastification once at each kind of node.
-/

namespace SignalLogic

/-- The unary operators that look ahead are `eventually` and `always` over a window
with a finite upper end. -/
theorem UnaryOp.lookAhead?_eq_some {op : UnaryOp} {ahead : UnaryLookAhead}
    (h : op.lookAhead? = some ahead) :
    ∃ f i, op = .temporal f (some i) ∧ f.past? = some ahead.past ∧
      i.upper = .finite ahead.reach ∧ ahead.width = ahead.reach - i.lower := by
  cases op with
  | abs b => cases h
  | not => cases h
  | edge e => cases h
  | temporal f window =>
      simp only [lookAhead?, bind, Option.bind_eq_some_iff, Endpoint.offset?_eq_some_iff] at h
      obtain ⟨past, hp, i, rfl, reach, hr, he⟩ := h
      cases he
      exact ⟨f, i, rfl, hp, hr, rfl⟩

/-- The binary operator that looks ahead is `until` over a window with a finite upper
end. -/
theorem BinaryOp.lookAhead?_eq_some {op : BinaryOp} {ahead : BinaryLookAhead}
    (h : op.lookAhead? = some ahead) :
    op = .temporal .until (some ahead.window) ∧ ahead.window.upper = .finite ahead.reach := by
  cases op with
  | arithmetic f b => cases h
  | comparison f b => cases h
  | logic f => cases h
  | temporal f window =>
      simp only [lookAhead?, bind, Option.bind_eq_some_iff, Endpoint.offset?_eq_some_iff,
        guard] at h
      obtain ⟨_, hf, i, rfl, reach, hr, he⟩ := h
      cases he
      cases f with
      | since => cases hf
      | precedes => cases hf
      | «until» => exact ⟨rfl, hr⟩

theorem UnaryOp.reach_of_lookAhead? {op : UnaryOp} {ahead : UnaryLookAhead}
    (h : op.lookAhead? = some ahead) : op.reach = ahead.reach.toNat := by
  simp [UnaryOp.reach, ← UnaryOp.lookAhead?_reach, h]

theorem UnaryOp.reach_eq_zero {op : UnaryOp} (h : op.lookAhead? = none) : op.reach = 0 := by
  simp [UnaryOp.reach, ← UnaryOp.lookAhead?_reach, h]

theorem BinaryOp.reach_of_lookAhead? {op : BinaryOp} {ahead : BinaryLookAhead}
    (h : op.lookAhead? = some ahead) : op.reach = ahead.reach.toNat := by
  simp [BinaryOp.reach, ← BinaryOp.lookAhead?_reach, h]

theorem BinaryOp.reach_eq_zero {op : BinaryOp} (h : op.lookAhead? = none) : op.reach = 0 := by
  simp [BinaryOp.reach, ← BinaryOp.lookAhead?_reach, h]

namespace Formula

variable {budget : Offset}

/-- The bounded future nodes are those that take a bounded look ahead. -/
theorem isBoundedFuture_unary (op : UnaryOp) (operand : Formula) (h : Option Offset) :
    (unary op operand h).isBoundedFuture = op.lookAhead?.isSome := by
  cases op with
  | temporal op window => cases op <;> rcases window with _ | ⟨_, _ | _, _⟩ <;> rfl
  | _ => rfl

/-- The bounded future nodes are those that take a bounded look ahead. -/
theorem isBoundedFuture_binary (op : BinaryOp) (left right : Formula) (h : Option Offset) :
    (binary op left right h).isBoundedFuture = op.lookAhead?.isSome := by
  cases op with
  | temporal op window => cases op <;> rcases window with _ | ⟨_, _ | _, _⟩ <;> rfl
  | _ => rfl

theorem value_pastifyWithin_ahead {op : UnaryOp} {ahead : UnaryLookAhead}
    (ha : op.lookAhead? = some ahead) (operand : Formula) (h : Option Offset) :
    ((unary op operand h).pastifyWithin budget).value =
      let operand := (operand.pastifyWithin (budget.monus ahead.reach)).value
      if ahead.width = 0 then operand
      else unaryTemporal ahead.past (some (Interval.upTo ahead.width)) operand := by
  simp only [pastifyWithin, ha, Logged.value_bind, value_spend, value_lookBack]

theorem value_pastifyWithin_unary {op : UnaryOp} (ha : op.lookAhead? = none)
    (operand : Formula) (h : Option Offset) :
    ((unary op operand h).pastifyWithin budget).value =
      unary op (operand.pastifyWithin budget).value none := by
  simp only [pastifyWithin, ha, Logged.value_bind, Logged.value_pure]

theorem value_pastifyWithin_until {op : BinaryOp} {ahead : BinaryLookAhead}
    (ha : op.lookAhead? = some ahead) (left right : Formula) (h : Option Offset) :
    ((binary op left right h).pastifyWithin budget).value =
      binaryTemporal .precedes (some ahead.window)
        (left.pastifyWithin (budget.monus ahead.reach)).value
        (right.pastifyWithin (budget.monus ahead.reach)).value := by
  simp only [pastifyWithin, ha, Logged.value_bind, Logged.value_pure, value_spend]

theorem value_pastifyWithin_binary {op : BinaryOp} (ha : op.lookAhead? = none)
    (left right : Formula) (h : Option Offset) :
    ((binary op left right h).pastifyWithin budget).value =
      binary op (left.pastifyWithin budget).value (right.pastifyWithin budget).value none := by
  simp only [pastifyWithin, ha, Logged.value_bind, Logged.value_pure]

/-- A look ahead is reported twice at most, around what its operand reports. -/
theorem records_pastifyWithin_ahead {op : UnaryOp} {ahead : UnaryLookAhead}
    (ha : op.lookAhead? = some ahead) (operand : Formula) (h : Option Offset) :
    ((unary op operand h).pastifyWithin budget).records =
      let name := (unary op operand h).name
      (if budget < ahead.reach then [.clamping budget name] else []) ++
        (operand.pastifyWithin (budget.monus ahead.reach)).records ++
        (if ahead.width = 0 then [.eliding name] else []) := by
  simp only [pastifyWithin, ha, Logged.records_bind, records_spend, value_spend, records_lookBack,
    List.append_assoc]

theorem records_pastifyWithin_unary {op : UnaryOp} (ha : op.lookAhead? = none)
    (operand : Formula) (h : Option Offset) :
    ((unary op operand h).pastifyWithin budget).records =
      (operand.pastifyWithin budget).records := by
  simp [pastifyWithin, ha]

theorem records_pastifyWithin_until {op : BinaryOp} {ahead : BinaryLookAhead}
    (ha : op.lookAhead? = some ahead) (left right : Formula) (h : Option Offset) :
    ((binary op left right h).pastifyWithin budget).records =
      (if budget < ahead.reach then [.clamping budget (binary op left right h).name] else []) ++
        (left.pastifyWithin (budget.monus ahead.reach)).records ++
        (right.pastifyWithin (budget.monus ahead.reach)).records := by
  simp [pastifyWithin, ha, records_spend]

theorem records_pastifyWithin_binary {op : BinaryOp} (ha : op.lookAhead? = none)
    (left right : Formula) (h : Option Offset) :
    ((binary op left right h).pastifyWithin budget).records =
      (left.pastifyWithin budget).records ++ (right.pastifyWithin budget).records := by
  simp [pastifyWithin, ha]

/-- The result of the pass is the formula that the rewriting yields. -/
@[simp] theorem value_pastifyWithHorizon (f : Formula) :
    (f.pastifyWithHorizon budget).value = (f.pastifyWithin budget).value := rfl

/-- The pass reports its formula and its result around what the rewriting reports. -/
theorem records_pastifyWithHorizon (f : Formula) :
    (f.pastifyWithHorizon budget).records =
      .pastifying f.name budget :: (f.pastifyWithin budget).records ++
        [.pastified (f.pastifyWithin budget).value.name] := rfl

end Formula

end SignalLogic
