import SignalLogic.FormationError

/-!
# Variables

A variable names a signal, possibly narrowed to one field of it, and says where
the signal comes from. An empty field is no field.
-/

namespace SignalLogic

/-- Where the signal of a variable comes from. -/
inductive Role where
  | input
  | output
  | internal
  deriving DecidableEq

namespace Role

/-- Each role is told by one word. -/
def word : Role → String
  | .input => "input"
  | .output => "output"
  | .internal => "internal"

/-- The role that a word tells. -/
def ofWord : String → Except FormationError Role
  | "input" => .ok .input
  | "output" => .ok .output
  | "internal" => .ok .internal
  | word => .error (.unknownRole word)

/-- Words tell roles apart. -/
theorem ofWord_word (r : Role) : ofWord r.word = .ok r := by
  cases r <;> rfl

end Role

/-- Name, field and origin of a signal. -/
structure Variable where
  name : String
  field : Option String
  role : Role
  field_ne_empty : field ≠ some ""
  deriving DecidableEq

namespace Variable

/-- An input without a field. -/
def named (name : String) : Variable :=
  ⟨name, none, .input, Option.some_ne_none "" |>.symm⟩

/-- Narrow a variable to a field; the empty field widens it again. -/
def withField (v : Variable) (field : String) : Variable :=
  if h : field = "" then { v with field := none, field_ne_empty := nofun }
  else { v with field := some field, field_ne_empty := by simpa using h }

/-- The same variable with another origin. -/
def withRole (v : Variable) (role : Role) : Variable :=
  { v with role }

/-- The name, followed by a point and the field if there is one. -/
def chars (v : Variable) : List Char :=
  match v.field with
  | some field => v.name.toList ++ '.' :: field.toList
  | none => v.name.toList

/-- The same characters as a string. -/
def text (v : Variable) : String :=
  String.ofList v.chars

end Variable

end SignalLogic
