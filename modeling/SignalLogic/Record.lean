import SignalLogic.Offset

/-!
# Records

What the passes over formulas report about the formulas that they meet. A formula
is told by its name.
-/

namespace SignalLogic

/-- What a pass reports about the formulas that it meets, each given by its name. -/
inductive Record where
  | horizonUndefined (name : String)
  | horizonComputed (horizon : Offset) (name : String)
  | horizonUnbounded (name : String)
  | pastifying (name : String) (horizon : Offset)
  | pastified (name : String)
  | clamping (budget : Offset) (name : String)
  | eliding (name : String)
  deriving DecidableEq

namespace Record

/-- Importance of a record. -/
inductive Level where
  | debug
  | trace
  deriving DecidableEq

/-- Name of a level at the beginning of a line. -/
def Level.word : Level → String
  | .debug => "debug"
  | .trace => "trace"

/-- Records about a whole pass are shown to a debugger, those about one node are
traced. -/
def level : Record → Level
  | .horizonComputed _ _ | .horizonUnbounded _ | .pastifying _ _ | .pastified _ => .debug
  | .horizonUndefined _ | .clamping _ _ | .eliding _ => .trace

/-- The wording of a record. -/
def message : Record → String
  | .horizonUndefined name => s!"horizon undefined for {name}"
  | .horizonComputed horizon name => s!"computed horizon {horizon.text} for {name}"
  | .horizonUnbounded name => s!"horizon of {name} depends on an unbounded future operator"
  | .pastifying name horizon => s!"pastifying {name} with horizon {horizon.text}"
  | .pastified name => s!"pastified formula {name}"
  | .clamping budget name =>
      s!"budget {budget.text} is smaller than the upper bound of {name}, clamping to 0"
  | .eliding name => s!"eliding zero-width {name}"

/-- The level and the message, as one line. -/
def line (r : Record) : String :=
  s!"{r.level.word} {r.message}"

end Record

end SignalLogic
