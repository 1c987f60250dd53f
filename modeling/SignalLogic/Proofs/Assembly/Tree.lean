import SignalLogic.Formula.Name
import SignalLogic.Parse

/-!
# Trees of loose parts

The type of formulas leaves no room for nodes whose parts do not fit together. A tree holds
the parts of each node side by side: an operator, a window given by two bounds, an evaluator
with an operation of its own, and a horizon. Nothing makes them fit, so assembly has to check
its parts, and whatever replaces an evaluator has to keep it in step with the operator.

The operations here are the ones on formulas, carried out on loose parts.
-/

namespace SignalLogic

/-- The two ends of a window, in whatever order. -/
structure Bounds where
  lower : Offset
  upper : Endpoint

namespace Bounds

/-- The bounds of a window between two offsets, refused when they are inverted. -/
def between (lower upper : Offset) : Except FormationError Bounds :=
  if upper < lower then .error (.invertedInterval lower upper) else .ok ⟨lower, .finite upper⟩

/-- The bounds of the window from `lower` to infinity. -/
def unbounded (lower : Offset) : Bounds :=
  ⟨lower, .infinite⟩

/-- The bounds of the window that holds one offset. -/
def point (offset : Offset) : Bounds :=
  ⟨offset, .finite offset⟩

/-- The ends in brackets, with a comma and no blanks between them. -/
def chars (b : Bounds) : List Char :=
  '[' :: (b.lower.chars ++ ',' :: (b.upper.chars ++ [']']))

/-- The bounds that can be formed. -/
inductive Formed : Bounds → Prop
  | between {lower upper b} (h : Bounds.between lower upper = .ok b) : Formed b
  | unbounded (lower) : Formed (.unbounded lower)
  | point (offset) : Formed (.point offset)

end Bounds

/-- What a node holds besides its operands. -/
structure Parts where
  operator : Operator
  window : Option Bounds := none
  evaluator : Option Evaluator := none
  horizon : Option Offset := none

/-- A tree of loose parts. -/
inductive Tree where
  | leaf (root : Parts)
  | unary (root : Parts) (operand : Tree)
  | binary (root : Parts) (left right : Tree)

/-- Label and window. -/
def Parts.chars (p : Parts) : List Char :=
  p.operator.label.toList ++ p.window.elim [] Bounds.chars

namespace Tree

/-- The parts of the root. -/
def root : Tree → Parts
  | leaf root => root
  | unary root _ => root
  | binary root _ _ => root

/-- Operands of the root, from left to right. -/
def children : Tree → List Tree
  | leaf _ => []
  | unary _ operand => [operand]
  | binary _ left right => [left, right]

/-- The same operands below other parts. -/
def withRoot (root : Parts) : Tree → Tree
  | leaf _ => leaf root
  | unary _ operand => unary root operand
  | binary _ left right => binary root left right

/-- The same tree with another horizon at its root. -/
def withHorizon (horizon : Option Offset) (t : Tree) : Tree :=
  t.withRoot { t.root with horizon }

/-- A tree and all trees below it, in pre-order. -/
def nodes : Tree → List Tree
  | leaf root => [leaf root]
  | unary root operand => unary root operand :: operand.nodes
  | binary root left right => binary root left right :: (left.nodes ++ right.nodes)

/-- The operator stands before a single operand and between two. -/
def chars : Tree → List Char
  | leaf root =>
      match root.operator with
      | .constant value => value.chars
      | .variable v => v.chars
      | _ => root.chars
  | unary root operand => root.chars ++ parenthesized operand.chars
  | binary root left right => parenthesized left.chars ++ root.chars ++ parenthesized right.chars

/-- The canonical text of a tree. -/
def name (t : Tree) : String :=
  String.ofList t.chars

-- Fresh nodes use the reference backend and have no horizon.

def ofValue (value : Value) : Tree :=
  leaf { operator := .constant value, evaluator := some ⟨.reference, .constant value⟩ }

def ofVariable (v : Variable) : Tree :=
  leaf { operator := .variable v, evaluator := some ⟨.reference, .variable⟩ }

def abs (operand : Tree) : Tree :=
  unary { operator := .abs, evaluator := some ⟨.reference, .abs⟩ } operand

def not (operand : Tree) : Tree :=
  unary { operator := .not } operand

def edge (op : Edge) (operand : Tree) : Tree :=
  unary { operator := .edge op } operand

def unaryTemporal (op : UnaryTemporal) (window : Option Bounds) (operand : Tree) : Tree :=
  unary { operator := .unaryTemporal op, window } operand

def arithmetic (op : Arithmetic) (left right : Tree) : Tree :=
  binary { operator := .arithmetic op, evaluator := some ⟨.reference, .arithmetic op⟩ }
    left right

def comparison (op : Comparison) (left right : Tree) : Tree :=
  binary { operator := .comparison op, evaluator := some ⟨.reference, .comparison op⟩ }
    left right

def logic (op : Logic) (left right : Tree) : Tree :=
  binary { operator := .logic op } left right

def binaryTemporal (op : BinaryTemporal) (window : Option Bounds) (left right : Tree) : Tree :=
  binary { operator := .binaryTemporal op, window } left right

/-- Checked assembly. The operands are counted, then the window is examined, and then the
typed constructor of the operator takes as many operands as it needs. -/
def ofParts (operator : Operator) (operands : List Tree) (window : Option Bounds) :
    Except FormationError Tree :=
  if operands.length ≠ operator.arity then
    .error (.arity operator.label operator.arity operands.length)
  else if window.isSome && !operator.acceptsInterval then
    .error (.unexpectedInterval operator.label)
  else match operator, operands with
    | .constant value, _ => .ok (ofValue value)
    | .variable v, _ => .ok (ofVariable v)
    | .abs, f :: _ => .ok f.abs
    | .arithmetic op, l :: r :: _ => .ok (arithmetic op l r)
    | .comparison op, l :: r :: _ => .ok (comparison op l r)
    | .not, f :: _ => .ok f.not
    | .logic op, l :: r :: _ => .ok (logic op l r)
    | .edge op, f :: _ => .ok (edge op f)
    | .unaryTemporal op, f :: _ => .ok (unaryTemporal op window f)
    | .binaryTemporal op, l :: r :: _ => .ok (binaryTemporal op window l r)
    | _, _ => .error (.arity operator.label operator.arity 0)

end Tree

/-- Select a backend for the operation that the evaluator applies, if there is one. -/
def Parts.select (build : Build) (backend : Backend) (p : Parts) :
    Except UnavailableBackend Parts :=
  match p.evaluator with
  | some e => do
      let e ← Evaluator.select build backend e.operation
      return { p with evaluator := some e }
  | none => return p

/-- Take over the evaluator of other parts if it applies the same operation. -/
def Parts.inherit (p other : Parts) : Parts :=
  match other.evaluator, p.evaluator with
  | some source, some own =>
      if own.operation == source.operation then { p with evaluator := some source } else p
  | _, _ => p

namespace Tree

/-- Select a backend for the root alone. -/
def usingBackend (build : Build) (backend : Backend) (t : Tree) :
    Except UnavailableBackend Tree := do
  let root ← t.root.select build backend
  return t.withRoot root

/-- Select a backend for every node, in pre-order. -/
def withBackend (build : Build) (backend : Backend) : Tree → Except UnavailableBackend Tree
  | leaf root => do
      let root ← root.select build backend
      return leaf root
  | unary root operand => do
      let root ← root.select build backend
      let operand ← operand.withBackend build backend
      return unary root operand
  | binary root left right => do
      let root ← root.select build backend
      let left ← left.withBackend build backend
      let right ← right.withBackend build backend
      return binary root left right

end Tree

end SignalLogic
