import SignalLogic.Formula.Basic
import SignalLogic.Grammar.Token

/-!
# Levels of the formula language

From the tightest binding level to the loosest: atoms, multiplication, addition,
comparison, the operators before an operand, the temporal operators between
operands, `and`, `or`, implication, equivalence. Implication associates to the
right, every other operator between operands to the left; comparisons do not
associate.

Each level is given the reader of the whole language, which it needs in
parentheses.
-/

namespace SignalLogic.Grammar

open Reader

/-- The value `a` for the text that `p` reads. -/
def giving {α : Type} (p : Reader Unit) (a : α) : Reader α := do
  p
  return a

/-- Operands with operators between them, associated to the left. -/
def chain (operand : Reader Formula) (operator : Reader (Formula → Formula → Formula)) :
    Reader Formula := do
  let first ← operand
  let others ← many (do return (← operator, ← operand))
  return others.foldl (fun left (op, right) => op left right) first

/-- Operators of one family, read without a window. -/
def between {α : Type} (build : α → Formula → Formula → Formula) (operators : List (Reader α)) :
    Reader (Formula → Formula → Formula) :=
  build <$> choice operators

/-- A formula of the whole language in parentheses. -/
def inParentheses (formula : Reader Formula) : Reader Formula := do
  symbol "("
  let f ← formula
  symbol ")"
  return f

/-- A number, an absolute value, a formula in parentheses or a variable. -/
def atom (formula : Reader Formula) : Reader Formula :=
  choice [
    .ofValue <$> token number,
    (do keyword "abs"; return (← inParentheses formula).abs),
    inParentheses formula,
    .ofVariable <$> token variableName]

/-- Products and quotients. -/
def multiplicative (formula : Reader Formula) : Reader Formula :=
  chain (atom formula) (between .arithmetic [
    giving (symbol "*") .multiplication,
    giving (symbol "/") .division])

/-- Sums and differences. -/
def additive (formula : Reader Formula) : Reader Formula :=
  chain (multiplicative formula) (between .arithmetic [
    giving (symbol "+") .addition,
    giving (symbol "-") .subtraction])

/-- The longer of two tokens with a common beginning is tried first. -/
def comparison : Reader Comparison :=
  token (choice [
    giving (literal "<=") .atMost,
    giving (literal ">=") .atLeast,
    giving (literal "==") .equal,
    giving (literal "!=") .different,
    giving (literal "<") .less,
    giving (literal ">") .greater])

/-- One comparison at most. -/
def relational (formula : Reader Formula) : Reader Formula := do
  let left ← additive formula
  match ← optional (do return (← comparison, ← additive formula)) with
  | some (op, right) => return .comparison op left right
  | none => return left

/-- Operators before an operand, down to a comparison. -/
def unary (formula : Reader Formula) : Reader Formula :=
  fix fun unary => choice [
    (do
      choice [keyword "not", symbol "!"]
      return (← unary).not),
    (do
      let op ← choice [giving (keyword "rise") Edge.rise, giving (keyword "fall") Edge.fall]
      return .edge op (← unary)),
    (do
      let op ← choice [
        giving (keyword "once") UnaryTemporal.once,
        giving (keyword "historically") UnaryTemporal.historically,
        giving (keyword "eventually") UnaryTemporal.eventually,
        giving (keyword "always") UnaryTemporal.always]
      let window ← optional interval
      return .unaryTemporal op window (← unary)),
    relational formula]

/-- Temporal operators between operands. -/
def binaryTemporal (formula : Reader Formula) : Reader Formula :=
  chain (unary formula) do
    let op ← choice [
      giving (keyword "since") BinaryTemporal.since,
      giving (keyword "until") BinaryTemporal.until,
      giving (keyword "precedes") BinaryTemporal.precedes]
    return .binaryTemporal op (← optional interval)

/-- Conjunctions. -/
def conjunction (formula : Reader Formula) : Reader Formula :=
  chain (binaryTemporal formula) (between .logic [
    giving (keyword "and") .conjunction,
    giving (symbol "&&") .conjunction])

/-- Disjunctions. -/
def disjunction (formula : Reader Formula) : Reader Formula :=
  chain (conjunction formula) (between .logic [
    giving (keyword "or") .disjunction,
    giving (symbol "||") .disjunction])

/-- Implications. -/
def implication (formula : Reader Formula) : Reader Formula :=
  fix fun implication => do
    let antecedent ← disjunction formula
    match ← optional (do choice [symbol "->", keyword "implies"]; implication) with
    | some consequent => return .logic .implication antecedent consequent
    | none => return antecedent

/-- The whole language. -/
def formula : Reader Formula :=
  fix fun formula => chain (implication formula) (between .logic [
    giving (symbol "<->") .equivalence,
    giving (keyword "iff") .equivalence,
    giving (keyword "xor") .exclusion])

end SignalLogic.Grammar
