import SignalLogic.Horizon
import SignalLogic.Pastification
import SignalLogic.Proofs.Assembly.Tree

/-!
# Passes over trees of loose parts

The horizon pass stores horizons and can do no harm. Pastification takes every node apart
and assembles it again. It can fail at four places: where the operands of a node are counted,
where its window is examined, where the width of a window is computed, and where the window
of that width is formed.
-/

namespace SignalLogic

/-- How far the window of a future operator reaches, if that is finite. -/
def Parts.reach? (p : Parts) : Option Offset :=
  p.window.bind (·.upper.offset?)

/-- Horizon of a node over operands whose joint horizon is given. -/
def Parts.horizonOver (p : Parts) (operands : Option Offset) : Option Offset :=
  if p.operator.isFuture then Horizon.beyond p.reach? operands else operands

namespace Tree

/-- Store a horizon at the root and report it if it is undefined. -/
def settle (t : Tree) (horizon : Option Offset) : Logged Tree := do
  if horizon = none then
    Logged.emit (.horizonUndefined t.name)
  return t.withHorizon horizon

/-- Store the horizon of every node, operands first. -/
def annotate : Tree → Logged Tree
  | leaf root => (leaf root).settle (some 0)
  | unary root operand => do
      let operand ← operand.annotate
      (unary root operand).settle (root.horizonOver operand.root.horizon)
  | binary root left right => do
      let left ← left.annotate
      let right ← right.annotate
      (binary root left right).settle
        (root.horizonOver (Horizon.join left.root.horizon right.root.horizon))

/-- Store the horizon of every node and report the one of the root. -/
def computeHorizon (t : Tree) : Logged Tree := do
  let t ← t.annotate
  match t.root.horizon with
  | some horizon => Logged.emit (.horizonComputed horizon t.name)
  | none => Logged.emit (.horizonUnbounded t.name)
  return t

end Tree

/-- Why a tree is not pastified. -/
inductive PastificationError where
  | undefinedHorizon (cause : UndefinedHorizon)
  | malformed (cause : FormationError)
  | underflow (upper lower : Offset)

/-- A pass that may fail. What it has reported until then remains. -/
abbrev Rewriting := ExceptT PastificationError Logged

/-- The window that a bounded `eventually` or `always` looks through, and its reach. -/
def Parts.unaryAhead? (p : Parts) : Option (UnaryTemporal × Bounds × Offset) :=
  match p.operator, p.window with
  | .unaryTemporal op, some window =>
      if op.isFuture then window.upper.offset?.map (op, window, ·) else none
  | _, _ => none

/-- The window that a bounded `until` looks through, and its reach. -/
def Parts.binaryAhead? (p : Parts) : Option (Bounds × Offset) :=
  match p.operator, p.window with
  | .binaryTemporal .until, some window => window.upper.offset?.map (window, ·)
  | _, _ => none

namespace Tree

/-- Distance between two bounds, which must not be inverted. -/
def width (lower upper : Offset) : Rewriting Offset :=
  if upper < lower then throw (.underflow upper lower) else return upper - lower

/-- Assemble a node again over rewritten operands. -/
def rebuild (root : Parts) (operands : List Tree) : Rewriting Tree :=
  match ofParts root.operator operands root.window with
  | .ok fresh => return fresh.withRoot (fresh.root.inherit root)
  | .error cause => throw (.malformed cause)

/-- A past operator over a window of the given width, left out if that is zero. -/
def lookBack (op : UnaryTemporal) (width : Offset) (operand : Tree) (name : String) :
    Rewriting Tree := do
  if width = 0 then
    Logged.emit (.eliding name)
    return operand
  else
    match Bounds.between 0 width with
    | .ok window => return unaryTemporal op (some window) operand
    | .error cause => throw (.malformed cause)

/-- Pastify under a budget. -/
def pastifyWithin (budget : Offset) : Tree → Rewriting Tree
  | leaf root =>
      match root.operator with
      | .variable _ =>
          if 0 < budget then do
            let v ← rebuild root []
            return unaryTemporal .once (some (.point budget)) v
          else rebuild root []
      | _ => rebuild root []
  | unary root operand =>
      match root.unaryAhead? with
      | some (op, window, upper) => do
          let name := (unary root operand).name
          let budget ← Formula.spend budget upper name
          let operand ← operand.pastifyWithin budget
          let width ← width window.lower upper
          lookBack (op.past?.getD op) width operand name
      | none => do
          let operand ← operand.pastifyWithin budget
          rebuild root [operand]
  | binary root left right =>
      match root.binaryAhead? with
      | some (window, upper) => do
          let budget ← Formula.spend budget upper (binary root left right).name
          let left ← left.pastifyWithin budget
          let right ← right.pastifyWithin budget
          return binaryTemporal .precedes (some window) left right
      | none => do
          let left ← left.pastifyWithin budget
          let right ← right.pastifyWithin budget
          rebuild root [left, right]

/-- Pastify with the given horizon as the delay. -/
def pastifyWithHorizon (horizon : Offset) (t : Tree) : Rewriting Tree := do
  Logged.emit (.pastifying t.name horizon)
  let past ← t.pastifyWithin horizon
  Logged.emit (.pastified past.name)
  return past

/-- Pastify with the horizon that is stored at the root. -/
def pastify (t : Tree) : Rewriting Tree :=
  match t.root.horizon with
  | some horizon => t.pastifyWithHorizon horizon
  | none => throw (.undefinedHorizon ⟨t.name⟩)

end Tree

end SignalLogic
