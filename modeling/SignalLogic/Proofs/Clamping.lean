import SignalLogic.Proofs.Demand
import SignalLogic.Proofs.LookAhead
import Mathlib.Order.Bounds.Defs

/-!
# Clamped budgets

Pastification takes the reach of each window off the budget of the node, from the root
down; the horizon pass adds the same reaches up. A budget runs out on the way exactly if
it is smaller than the reach of the formula, so the horizon is the least budget under
which none does.
-/

namespace SignalLogic

/-- Some window reached further than the budget that was left. -/
def Clamped (records : List Record) : Prop :=
  ∃ budget name, Record.clamping budget name ∈ records

@[simp] theorem not_clamped_nil : ¬ Clamped [] := by
  simp [Clamped]

@[simp] theorem clamped_append (l r : List Record) :
    Clamped (l ++ r) ↔ Clamped l ∨ Clamped r := by
  simp [Clamped, exists_or]

/-- The report of a window that is met with too small a budget. -/
@[simp] theorem clamped_spending (budget reach : Offset) (name : String) :
    Clamped (if budget < reach then [.clamping budget name] else []) ↔
      budget.toNat < reach.toNat := by
  rw [← UInt64.lt_iff_toNat_lt]
  split
  case isTrue h => simp [Clamped, h]
  case isFalse h => simp [h]

/-- An operator that is left out takes nothing off the budget. -/
@[simp] theorem not_clamped_eliding (width : Offset) (name : String) :
    ¬ Clamped (if width = 0 then [.eliding name] else []) := by
  split <;> simp [Clamped]

namespace Formula

/-- A budget runs out somewhere exactly if it is smaller than the reach: each window takes
its own reach off, and what is left must cover the operands. -/
theorem clamped_pastifyWithin_iff (f : Formula) (budget : Offset) :
    Clamped (f.pastifyWithin budget).records ↔ budget.toNat < f.reach := by
  induction f generalizing budget with
  | leaf op h => cases op <;> simp [pastifyWithin, reach]
  | unary op operand h ih =>
      cases ha : op.lookAhead? with
      | none => simp [records_pastifyWithin_unary ha, reach, UnaryOp.reach_eq_zero ha, ih]
      | some ahead =>
          simp only [records_pastifyWithin_ahead ha, clamped_append, clamped_spending,
            not_clamped_eliding, or_false, ih, Offset.toNat_monus, reach,
            UnaryOp.reach_of_lookAhead? ha]
          omega
  | binary op left right h ihl ihr =>
      cases ha : op.lookAhead? with
      | none =>
          simp only [records_pastifyWithin_binary ha, clamped_append, ihl, ihr, reach,
            BinaryOp.reach_eq_zero ha]
          omega
      | some ahead =>
          simp only [records_pastifyWithin_until ha, clamped_append, clamped_spending, ihl, ihr,
            Offset.toNat_monus, reach, BinaryOp.reach_of_lookAhead? ha]
          omega

theorem clamped_pastifyWithHorizon_iff (f : Formula) (budget : Offset) :
    Clamped (f.pastifyWithHorizon budget).records ↔ budget.toNat < f.reach := by
  rw [← clamped_pastifyWithin_iff, records_pastifyWithHorizon]
  simp [Clamped]

/-- Where the horizon pass finds a horizon, pastification reports a clamped budget exactly
under the smaller ones. So the horizon is the least budget under which no window is clamped,
and pastification after the horizon pass clamps none. -/
theorem clamped_iff_lt_horizon {f : Formula} {horizon : Offset}
    (h : f.computeHorizon.value.horizon = some horizon) :
    (∀ g ∈ [f, f.computeHorizon.value], ∀ budget,
      Clamped (g.pastifyWithHorizon budget).records ↔ budget < horizon) ∧
    IsLeast {budget | ¬ Clamped (f.pastifyWithHorizon budget).records} horizon ∧
    ∃ past, f.computeHorizon.value.pastify = .ok past ∧ ¬ Clamped past.records := by
  have hreach : f.reach = horizon.toNat := by
    rw [value_computeHorizon] at h
    exact ((f.horizon_annotate_eq_some_iff horizon).mp h).2
  have hclamped (budget : Offset) :
      Clamped (f.pastifyWithHorizon budget).records ↔ budget < horizon := by
    rw [clamped_pastifyWithHorizon_iff, hreach, UInt64.lt_iff_toNat_lt]
  have hnone : ¬ Clamped (f.pastifyWithHorizon horizon).records := by
    rw [hclamped]
    exact UInt64.lt_irrefl horizon
  refine ⟨?_, ⟨hnone, ?_⟩, f.pastifyWithHorizon horizon, pastify_computeHorizon h, hnone⟩
  · simp [clamped_pastifyWithHorizon_iff, hreach, UInt64.lt_iff_toNat_lt]
  · intro budget hbudget
    exact UInt64.not_lt.mp fun hlt => hbudget ((hclamped budget).mpr hlt)

/-- Since ever, a request was held until its grant three samples later at most, and an
acknowledgement came at each of the offsets two to five. -/
def acknowledgedGrant : Formula :=
  .unaryTemporal .historically none
    (.logic .conjunction
      (.binaryTemporal .until (some ⟨1, .finite 3, by decide⟩)
        (.ofVariable (.named "req")) (.ofVariable (.named "gnt")))
      (.unaryTemporal .always (some (.upTo 3))
        (.unaryTemporal .eventually (some (.point 2)) (.ofVariable (.named "ack")))))

theorem clamped_acknowledgedGrant :
    acknowledgedGrant.computeHorizon.value.horizon = some 5 ∧
    (∀ g ∈ [acknowledgedGrant, acknowledgedGrant.computeHorizon.value], ∀ budget,
      Clamped (g.pastifyWithHorizon budget).records ↔ budget < 5) ∧
    IsLeast {budget | ¬ Clamped (acknowledgedGrant.pastifyWithHorizon budget).records} 5 ∧
    ∃ past, acknowledgedGrant.computeHorizon.value.pastify = .ok past ∧
      ¬ Clamped past.records := by
  have h : acknowledgedGrant.computeHorizon.value.horizon = some 5 := by decide
  exact ⟨h, clamped_iff_lt_horizon h⟩

end Formula

end SignalLogic
