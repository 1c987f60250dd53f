import SignalLogic.Formula.Basic
import SignalLogic.Proofs.Grammar.Lexeme

/-!
# The grammar of formulas

A context-free grammar: its rules have no order, and a text may be taken apart in any
way that they allow. There is one level of phrases for each binding strength. The
operators between operands stand in a table by level, those before an operand in a
table of their own.
-/

namespace SignalLogic.Grammar

/-- Binding strengths, from the loosest to the tightest. -/
inductive Level where
  | formula
  | implication
  | disjunction
  | conjunction
  | binaryTemporal
  | unary
  | relational
  | additive
  | multiplicative
  | atom
  deriving DecidableEq

namespace Level

/-- The next tighter level. -/
def next : Level → Level
  | formula => implication
  | implication => disjunction
  | disjunction => conjunction
  | conjunction => binaryTemporal
  | binaryTemporal => unary
  | unary => relational
  | relational => additive
  | additive => multiplicative
  | multiplicative => atom
  | atom => atom

/-- The levels at which any number of operators is associated to the left. -/
def isChain : Level → Bool
  | formula | disjunction | conjunction | binaryTemporal | additive | multiplicative => true
  | implication | unary | relational | atom => false

/-- The operators between the operands of a level, windows apart. -/
def operators : Level → List (Token × BinaryOp)
  | formula => [
      (.symbol "<->", .logic .equivalence),
      (.word "iff", .logic .equivalence),
      (.word "xor", .logic .exclusion)]
  | implication => [
      (.symbol "->", .logic .implication),
      (.word "implies", .logic .implication)]
  | disjunction => [
      (.word "or", .logic .disjunction),
      (.symbol "||", .logic .disjunction)]
  | conjunction => [
      (.word "and", .logic .conjunction),
      (.symbol "&&", .logic .conjunction)]
  | binaryTemporal => [
      (.word "since", .temporal .since none),
      (.word "until", .temporal .until none),
      (.word "precedes", .temporal .precedes none)]
  | relational => [
      (.symbol "<=", .comparison .atMost .reference),
      (.symbol ">=", .comparison .atLeast .reference),
      (.symbol "==", .comparison .equal .reference),
      (.symbol "!=", .comparison .different .reference),
      (.symbol "<", .comparison .less .reference),
      (.symbol ">", .comparison .greater .reference)]
  | additive => [
      (.symbol "+", .arithmetic .addition .reference),
      (.symbol "-", .arithmetic .subtraction .reference)]
  | multiplicative => [
      (.symbol "*", .arithmetic .multiplication .reference),
      (.symbol "/", .arithmetic .division .reference)]
  | unary => []
  | atom => []

end Level

/-- The operators that negate an operand. -/
def negations : List (Token × UnaryOp) := [
  (.word "not", .not),
  (.symbol "!", .not)]

/-- The operators that look for an edge of an operand. -/
def edges : List (Token × UnaryOp) := [
  (.word "rise", .edge .rise),
  (.word "fall", .edge .fall)]

/-- The temporal operators before an operand, windows apart. -/
def temporals : List (Token × UnaryOp) := [
  (.word "once", .temporal .once none),
  (.word "historically", .temporal .historically none),
  (.word "eventually", .temporal .eventually none),
  (.word "always", .temporal .always none)]

/-- The operators before an operand, windows apart. -/
def leadingOperators : List (Token × UnaryOp) :=
  negations ++ edges ++ temporals

/-- An operator between operands of a level; a temporal one may have a window. -/
inductive Between (ℓ : Level) : BinaryOp → List Char → List Char → Prop
  | plain {t op s r} (h : (t, op) ∈ ℓ.operators) (ht : Spaced t.Reads s r) : Between ℓ op s r
  | windowed {t op i s m r} (h : (t, .temporal op none) ∈ ℓ.operators)
      (ht : Spaced t.Reads s m) (hi : Window i m r) : Between ℓ (.temporal op (some i)) s r

/-- An operator before an operand; a temporal one may have a window. -/
inductive Leading : UnaryOp → List Char → List Char → Prop
  | plain {t op s r} (h : (t, op) ∈ leadingOperators) (ht : Spaced t.Reads s r) :
      Leading op s r
  | windowed {t op i s m r} (h : (t, .temporal op none) ∈ leadingOperators)
      (ht : Spaced t.Reads s m) (hi : Window i m r) : Leading (.temporal op (some i)) s r

/-- A whole phrase of a level, or what may follow in a chain of operators after the
formula that has been formed so far. -/
inductive Phrase where
  | whole (ℓ : Level)
  | further (ℓ : Level) (sofar : Formula)

/-- The phrase stands for the formula at the beginning of the first text, and the
second text follows it. -/
inductive Derives : Phrase → Formula → List Char → List Char → Prop
  /-- A number is an atom. -/
  | number {x s r} (h : Spaced (Number x) s r) : Derives (.whole .atom) (.ofValue x) s r
  /-- A variable is an atom. -/
  | reference {v s r} (h : Spaced (Reference v) s r) : Derives (.whole .atom) (.ofVariable v) s r
  /-- A formula in parentheses is an atom. -/
  | parentheses {f s m m' r} (ho : Spaced (Token.symbol "(").Reads s m)
      (hf : Derives (.whole .formula) f m m') (hc : Spaced (Token.symbol ")").Reads m' r) :
      Derives (.whole .atom) f s r
  /-- An absolute value is an atom. -/
  | abs {f s s' m m' r} (ha : Spaced (Token.word "abs").Reads s s')
      (ho : Spaced (Token.symbol "(").Reads s' m) (hf : Derives (.whole .formula) f m m')
      (hc : Spaced (Token.symbol ")").Reads m' r) : Derives (.whole .atom) f.abs s r
  /-- A chain begins with an operand. -/
  | chain {ℓ f g s m r} (hℓ : ℓ.isChain = true) (hf : Derives (.whole ℓ.next) f s m)
      (hg : Derives (.further ℓ f) g m r) : Derives (.whole ℓ) g s r
  /-- A chain may end after each operand. -/
  | finish {ℓ f s} : Derives (.further ℓ f) f s s
  /-- A chain may go on with an operator and an operand. -/
  | extend {ℓ f g k op s m m' r} (ho : Between ℓ op s m)
      (hg : Derives (.whole ℓ.next) g m m')
      (hk : Derives (.further ℓ (.binary op f g none)) k m' r) : Derives (.further ℓ f) k s r
  /-- A comparison has two operands. -/
  | comparison {f g op s m m' r} (hf : Derives (.whole .additive) f s m)
      (ho : Between .relational op m m') (hg : Derives (.whole .additive) g m' r) :
      Derives (.whole .relational) (.binary op f g none) s r
  /-- An implication is associated to the right. -/
  | implication {f g op s m m' r} (hf : Derives (.whole .disjunction) f s m)
      (ho : Between .implication op m m') (hg : Derives (.whole .implication) g m' r) :
      Derives (.whole .implication) (.binary op f g none) s r
  /-- Operators before an operand may be repeated. -/
  | leading {f op s m r} (ho : Leading op s m) (hf : Derives (.whole .unary) f m r) :
      Derives (.whole .unary) (.unary op f none) s r
  /-- The other levels need no operator. -/
  | tighter {ℓ f s r} (hℓ : ℓ = .implication ∨ ℓ = .unary ∨ ℓ = .relational)
      (hf : Derives (.whole ℓ.next) f s r) : Derives (.whole ℓ) f s r

end SignalLogic.Grammar
