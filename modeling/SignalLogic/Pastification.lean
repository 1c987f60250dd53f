import SignalLogic.Formula.Name
import SignalLogic.Logged

/-!
# Pastification

A monitor that reports the verdict for an instant only after a delay of as many
samples as the horizon can replace every look into a bounded future by a look into
the past. The budget of a node is the delay that is left at it. A variable is read
as many samples ago as its budget says. A bounded future operator spends its upper
bound: `eventually` and `always` then look back over the width of their windows,
and `until` becomes `precedes`. All other operators, future operators without a
finite window among them, stay and hand their budget on.
-/

namespace SignalLogic

/-- A formula was to be pastified under its own horizon, which is not known. -/
structure UndefinedHorizon where
  name : String
  deriving DecidableEq

/-- The wording shown to a user. -/
def UndefinedHorizon.message (e : UndefinedHorizon) : String :=
  s!"Horizon is undefined for node {e.name}"

/-- A bounded `eventually` or `always`: the operator that looks back instead, the
width of the window and how far it reaches. -/
structure UnaryLookAhead where
  past : UnaryTemporal
  width : Offset
  reach : Offset

/-- A bounded `until`: its window and how far it reaches. -/
structure BinaryLookAhead where
  window : Interval
  reach : Offset

/-- The bounded look into the future that a unary operator takes, if any. -/
def UnaryOp.lookAhead? : UnaryOp → Option UnaryLookAhead
  | .temporal op window => do
      let past ← op.past?
      let window ← window
      let reach ← window.upper.offset?
      return ⟨past, reach - window.lower, reach⟩
  | .abs _ | .not | .edge _ => none

/-- The bounded look into the future that a binary operator takes, if any. -/
def BinaryOp.lookAhead? : BinaryOp → Option BinaryLookAhead
  | .temporal op window => do
      guard op.isFuture
      let window ← window
      let reach ← window.upper.offset?
      return ⟨window, reach⟩
  | .arithmetic _ _ | .comparison _ _ | .logic _ => none

/-- A unary operator looks ahead exactly as far as it reaches. -/
theorem UnaryOp.lookAhead?_reach (op : UnaryOp) :
    op.lookAhead?.map UnaryLookAhead.reach = op.reach? := by
  cases op with
  | temporal op window =>
    cases op <;> rcases window with _ | ⟨_, _ | _, _⟩ <;> rfl
  | _ => rfl

/-- A binary operator looks ahead exactly as far as it reaches. -/
theorem BinaryOp.lookAhead?_reach (op : BinaryOp) :
    op.lookAhead?.map BinaryLookAhead.reach = op.reach? := by
  cases op with
  | temporal op window =>
    cases op <;> rcases window with _ | ⟨_, _ | _, _⟩ <;> rfl
  | _ => rfl

namespace Formula

/-- Read a formula as many samples ago as the budget says. -/
def delayed (budget : Offset) (f : Formula) : Formula :=
  if budget = 0 then f else unaryTemporal .once (some (Interval.point budget)) f

/-- What is left of a budget after the reach of the named node. -/
def spend (budget reach : Offset) (name : String) : Logged Offset := do
  if budget < reach then
    Logged.emit (.clamping budget name)
  return budget.monus reach

@[simp] theorem value_spend (budget reach : Offset) (name : String) :
    (spend budget reach name).value = budget.monus reach := by
  unfold spend
  split <;> rfl

/-- Spending more than the budget is reported. -/
theorem records_spend (budget reach : Offset) (name : String) :
    (spend budget reach name).records =
      if budget < reach then [.clamping budget name] else [] := by
  unfold spend
  split <;> rfl

/-- A past operator over a window of the given width. A window of width zero holds
the present alone, and its operator is left out. -/
def lookBack (op : UnaryTemporal) (width : Offset) (operand : Formula) (name : String) :
    Logged Formula := do
  if width = 0 then
    Logged.emit (.eliding name)
    return operand
  else
    return unaryTemporal op (some (Interval.upTo width)) operand

@[simp] theorem value_lookBack (op : UnaryTemporal) (width : Offset) (operand : Formula)
    (name : String) :
    (lookBack op width operand name).value =
      if width = 0 then operand else unaryTemporal op (some (Interval.upTo width)) operand := by
  unfold lookBack
  split <;> rfl

/-- Leaving an operator out is reported. -/
theorem records_lookBack (op : UnaryTemporal) (width : Offset) (operand : Formula)
    (name : String) :
    (lookBack op width operand name).records =
      if width = 0 then [.eliding name] else [] := by
  unfold lookBack
  split <;> rfl

/-- Pastify under a budget. -/
def pastifyWithin (budget : Offset) : Formula → Logged Formula
  | leaf (.constant value backend) _ => return leaf (.constant value backend) none
  | leaf (.variable v backend) _ => return (leaf (.variable v backend) none).delayed budget
  | unary op operand h =>
      match op.lookAhead? with
      | some ahead => do
          let name := (unary op operand h).name
          let budget ← spend budget ahead.reach name
          let operand ← operand.pastifyWithin budget
          lookBack ahead.past ahead.width operand name
      | none => do
          let operand ← operand.pastifyWithin budget
          return unary op operand none
  | binary op left right h =>
      match op.lookAhead? with
      | some ahead => do
          let budget ← spend budget ahead.reach (binary op left right h).name
          let left ← left.pastifyWithin budget
          let right ← right.pastifyWithin budget
          return binaryTemporal .precedes (some ahead.window) left right
      | none => do
          let left ← left.pastifyWithin budget
          let right ← right.pastifyWithin budget
          return binary op left right none

/-- Pastify with the given horizon as the delay. -/
def pastifyWithHorizon (horizon : Offset) (f : Formula) : Logged Formula := do
  Logged.emit (.pastifying f.name horizon)
  let past ← f.pastifyWithin horizon
  Logged.emit (.pastified past.name)
  return past

/-- Pastify with the horizon that is stored at the root. -/
def pastify (f : Formula) : Except UndefinedHorizon (Logged Formula) :=
  match f.horizon with
  | some horizon => .ok (f.pastifyWithHorizon horizon)
  | none => .error ⟨f.name⟩

end Formula

end SignalLogic
