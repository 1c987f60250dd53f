import SignalLogic.Interval
import SignalLogic.Operator
import SignalLogic.Reader

/-!
# Tokens

Numbers, intervals and variables of the formula language. Blanks may stand around
the bounds of an interval, but not inside a number or a variable.
-/

namespace SignalLogic.Grammar

open Reader

/-- One decimal digit or more. -/
def digits : Reader (List Char) :=
  run Char.isDigit

/-- Sign and magnitude of a decimal; a point needs digits on both sides. -/
def signedDecimal : Reader (Bool × Decimal) := do
  let minus ← optional (literal "-")
  let whole ← digits
  let fraction ← optional (do literal "."; digits)
  return (minus.isSome, .ofDigits whole (fraction.getD []))

/-- The value nearest to a decimal. -/
def number : Reader Value := do
  let (negative, magnitude) ← signedDecimal
  return .ofDecimal negative magnitude

/-- Digits whose value is an offset. -/
def offset : Reader Offset :=
  filterMap digits fun cs => Offset.ofNat? (Nat.ofDigitChars 10 cs 0)

/-- The word for the infinite end, or an offset. -/
def endpoint : Reader Endpoint :=
  choice [
    (do literal "inf"; return .infinite),
    .finite <$> offset]

/-- The bounds of an interval, up to the closing bracket. -/
def bounds : Reader (Offset × Endpoint) := do
  let lower ← token offset
  literal ","
  let upper ← token endpoint
  literal "]"
  return (lower, upper)

/-- After an opening bracket nothing but the rest of an interval is accepted. -/
def interval : Reader Interval :=
  token do
    literal "["
    commit (form bounds fun (lower, upper) => Interval.ofEnds lower upper)

/-- The words that name no variable. -/
def reserved : List String :=
  ["not", "and", "or", "xor", "implies", "iff", "abs", "rise", "fall", "once", "historically",
    "eventually", "always", "since", "until", "precedes"]

/-- The characters that may begin a segment. -/
def isSegmentHead (c : Char) : Bool :=
  c.isAlpha || c = '_'

/-- The characters that may go on with a segment. -/
def isSegmentTail (c : Char) : Bool :=
  c.isAlphanum || c = '_'

/-- The longest identifier of letters, digits and underscores. -/
def identifier : Reader String
  | [] => mismatch []
  | c :: rest =>
      if isSegmentHead c then
        .ok (.ofList (c :: rest.takeWhile isSegmentTail), rest.dropWhile isSegmentTail)
      else mismatch (c :: rest)

/-- An identifier that is no reserved word. -/
def segment : Reader String :=
  filterMap identifier fun word => if word ∈ reserved then none else some word

/-- Of two or more segments the last one is the field. -/
def ofSegments (first : String) (others : List String) : Variable :=
  match others.getLast? with
  | none => .named first
  | some field => (Variable.named (".".intercalate (first :: others.dropLast))).withField field

/-- Segments with single points between them, without blanks. -/
def variableName : Reader Variable := do
  let first ← segment
  let others ← many (do literal "."; segment)
  return ofSegments first others

end SignalLogic.Grammar
