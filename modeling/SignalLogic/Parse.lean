import SignalLogic.Formula.Backends
import SignalLogic.Grammar.Levels

/-!
# Parsing

A text is a formula when the formula language reads all of it. An error quotes the
text from where it arose to the end.
-/

namespace SignalLogic

/-- Why a text is no formula that can be used. -/
inductive ParseError where
  | mismatch (rest : String)
  | incomplete (rest : String)
  | malformed (rest : String) (cause : FormationError)
  | unavailable (cause : UnavailableBackend)

namespace ParseError

/-- The wording shown to a user; quoted text is written as it stands. -/
def message : ParseError → String
  | .mismatch rest => s!"Syntax error at \"{rest}\""
  | .incomplete rest => s!"Could not parse remaining input \"{rest}\""
  | .malformed rest cause => s!"Malformed formula at \"{rest}\": {cause.message}"
  | .unavailable cause => cause.message

/-- A failed reader reports a mismatch where it failed, committed or not. -/
def ofFailure : Failure → ParseError
  | .mismatch rest => .mismatch (.ofList rest)
  | .committed rest => .mismatch (.ofList rest)
  | .malformed rest cause => .malformed (.ofList rest) cause

end ParseError

/-- The formula that a list of characters stands for. -/
def parseChars (text : List Char) : Except ParseError Formula :=
  match Reader.token Grammar.formula text with
  | .ok (f, []) => .ok f
  | .ok (_, rest) => .error (.incomplete (.ofList rest))
  | .error failure => .error (.ofFailure failure)

/-- The formula that a text stands for, with the reference backend. -/
def parse (text : String) : Except ParseError Formula :=
  parseChars text.toList

/-- The formula that a text stands for, with the given backend. -/
def parseWithBackend (build : Build) (backend : Backend) (text : String) :
    Except ParseError Formula := do
  let f ← parse text
  (f.withBackend build backend).mapError .unavailable

end SignalLogic
