import SignalLogic.Proofs.Assembly.Representation
import SignalLogic.Proofs.Congruence
import SignalLogic.Proofs.Selection

/-!
# Decomposition and assembly

The views of a node tell its operator, its operands and its window, and assembly puts them
together again. A node that is taken apart and assembled comes back fresh: without its horizon
and with the reference backend. What is assembled from any other parts that fit is what the
typed constructor of the operator makes of them, and it is taken apart into these parts.
-/

namespace SignalLogic

theorem LeafOp.on_beq_iff {b : Backend} (op : LeafOp) :
    (op.on b == op) = true ↔ op.backend = b := by
  constructor
  · intro h
    cases op with
    | constant x b' =>
        obtain ⟨y, hy⟩ := eq_constant_of_beq h
        exact (constant.inj hy).2.symm
    | «variable» v b' => exact (variable.inj (eq_variable_of_beq h)).2.symm
  · rintro rfl
    cases op <;> exact beq_refl _

theorem UnaryOp.on_reference_eq_iff (op : UnaryOp) :
    op.on .reference = op ↔ op.backend? ≠ some .native := by
  cases op with
  | abs b => cases b <;> decide
  | not | edge | temporal => exact iff_of_true rfl (Option.some_ne_none _).symm

theorem BinaryOp.on_reference_eq_iff (op : BinaryOp) :
    op.on .reference = op ↔ op.backend? ≠ some .native := by
  cases op with
  | arithmetic _ b | comparison _ b => cases b <;> simp [on, backend?]
  | logic | temporal => exact iff_of_true rfl (Option.some_ne_none _).symm

namespace Formula

/-- The typed constructor for an operator, the operands and the window makes the formula of
them. -/
inductive Constructed : Operator → List Formula → Option Interval → Formula → Prop
  | constant {x} : Constructed (.constant x) [] none (ofValue x)
  | variable {v} : Constructed (.variable v) [] none (ofVariable v)
  | abs {f} : Constructed .abs [f] none f.abs
  | arithmetic {op l r} : Constructed (.arithmetic op) [l, r] none (arithmetic op l r)
  | comparison {op l r} : Constructed (.comparison op) [l, r] none (comparison op l r)
  | not {f} : Constructed .not [f] none f.not
  | logic {op l r} : Constructed (.logic op) [l, r] none (logic op l r)
  | edge {op f} : Constructed (.edge op) [f] none (edge op f)
  | unaryTemporal {op window f} :
      Constructed (.unaryTemporal op) [f] window (unaryTemporal op window f)
  | binaryTemporal {op window l r} :
      Constructed (.binaryTemporal op) [l, r] window (binaryTemporal op window l r)

variable {operator : Operator} {operands : List Formula} {window : Option Interval} {f : Formula}

theorem ofParts_of_length_ne (h : operands.length ≠ operator.arity) :
    ofParts operator operands window =
      .error (.arity operator.label operator.arity operands.length) := by
  rw [ofParts, assemble?_eq_none_iff.mpr h]

theorem exists_assemble? (h : operands.length = operator.arity) (window : Option Interval) :
    ∃ f, assemble? operator operands window = some f := by
  rw [← Option.isSome_iff_exists, Option.isSome_iff_ne_none, Ne, assemble?_eq_none_iff, not_not]
  exact h

theorem ofParts_of_window (h : operands.length = operator.arity) (hwindow : window ≠ none)
    (hoperator : operator.acceptsInterval = false) :
    ofParts operator operands window = .error (.unexpectedInterval operator.label) := by
  obtain ⟨f, hf⟩ := exists_assemble? h window
  have hisSome : window.isSome = true := Option.isSome_iff_ne_none.mpr hwindow
  simp [ofParts, hf, hisSome, hoperator]

/-- Assembly succeeds on parts that fit, and on no others. -/
theorem exists_ofParts_iff :
    (∃ f, ofParts operator operands window = .ok f) ↔
      operands.length = operator.arity ∧ (window = none ∨ operator.acceptsInterval = true) := by
  simp only [ofParts_eq_ok_iff_assemble?]
  constructor
  · rintro ⟨f, hf, hwindow⟩
    refine ⟨?_, hwindow⟩
    by_contra hne
    rw [assemble?_eq_none_iff.mpr hne] at hf
    cases hf
  · rintro ⟨hlength, hwindow⟩
    obtain ⟨f, hf⟩ := exists_assemble? hlength window
    exact ⟨f, hf, hwindow⟩

/-- What is assembled is what the typed constructors make of parts that fit. -/
theorem ofParts_eq_ok_iff_constructed :
    ofParts operator operands window = .ok f ↔ Constructed operator operands window f := by
  constructor
  · intro h
    obtain ⟨hf, hwindow⟩ := ofParts_eq_ok_iff_assemble?.mp h
    unfold assemble? at hf
    split at hf <;> cases hf
    case h_9 => exact .unaryTemporal
    case h_10 => exact .binaryTemporal
    all_goals
      obtain rfl : window = none := by simpa [Operator.acceptsInterval] using hwindow
      constructor
  · rintro ⟨⟩ <;> first | rfl | (cases window <;> rfl)

/-- What a typed constructor makes of parts is taken apart into them. -/
theorem Constructed.views (h : Constructed operator operands window f) :
    f.operator = operator ∧ f.children = operands ∧ f.window? = window := by
  cases h <;> exact ⟨rfl, rfl, rfl⟩

/-- The same node with the reference backend and without a horizon, over the same operands. -/
def refreshed : Formula → Formula
  | leaf op _ => leaf (op.on .reference) none
  | unary op operand _ => unary (op.on .reference) operand none
  | binary op left right _ => binary (op.on .reference) left right none

/-- The parts of a node make the node afresh. -/
theorem constructed_refreshed (f : Formula) :
    Constructed f.operator f.children f.window? f.refreshed := by
  cases f with
  | leaf op _ =>
      cases op with
      | constant => exact .constant
      | «variable» => exact .variable
  | unary op _ _ =>
      cases op with
      | abs => exact .abs
      | not => exact .not
      | edge => exact .edge
      | temporal => exact .unaryTemporal
  | binary op _ _ _ =>
      cases op with
      | arithmetic => exact .arithmetic
      | comparison => exact .comparison
      | logic => exact .logic
      | temporal => exact .binaryTemporal

theorem horizon_refreshed (f : Formula) : f.refreshed.horizon = none := by
  cases f <;> rfl

theorem evaluator?_refreshed (f : Formula) :
    f.refreshed.evaluator? = f.evaluator?.map fun e => ⟨.reference, e.operation⟩ := by
  cases f with
  | leaf op _ => exact evaluator?_leaf_on ..
  | unary op _ _ => exact evaluator?_unary_on ..
  | binary op _ _ _ => exact evaluator?_binary_on ..

/-- A node comes back as an equal one when it does not need the native backend. -/
theorem refreshed_beq_iff (f : Formula) :
    (f.refreshed == f) = true ↔ f.backend? ≠ some .native := by
  have hrefl (g : Formula) : (g == g) = true := beq_equivalence.refl g
  cases f with
  | leaf op _ =>
      rw [refreshed, leaf_beq_leaf, op.on_beq_iff, backend?]
      cases op.backend <;> decide
  | unary op operand _ =>
      rw [refreshed, unary_beq_unary, hrefl, Bool.and_true, beq_iff_eq, op.on_reference_eq_iff,
        backend?]
  | binary op left right _ =>
      rw [refreshed, binary_beq_binary, hrefl, hrefl, Bool.and_true, Bool.and_true, beq_iff_eq,
        op.on_reference_eq_iff, backend?]

/-- Decomposition and checked assembly are inverse. The parts of a node always fit, and what they
are assembled to has the same parts, no horizon, and the reference backend where the node is
evaluated; so it equals the node exactly when the node does not use another backend itself.
Whatever the parts, assembly succeeds exactly when there are as many operands as the operator
asks for and a window only where it accepts one; then the result is that of the typed constructor
and has these parts. A wrong number of operands is reported with the two numbers, whatever the
window is, and only then a window that is not accepted. Loose parts are assembled alike, so the
typed constructors never run out of operands. -/
theorem ofParts_inverse :
    (∀ f : Formula, ∃ m, ofParts f.operator f.children f.window? = .ok m ∧
      m.operator = f.operator ∧ m.children = f.children ∧ m.window? = f.window? ∧
      m.horizon = none ∧
      m.evaluator? = f.evaluator?.map (fun e => ⟨.reference, e.operation⟩) ∧
      ((m == f) = true ↔ ∀ e, f.evaluator? = some e → e.backend = .reference)) ∧
    ∀ (operator : Operator) (operands : List Formula) (window : Option Interval),
      ((∃ m, ofParts operator operands window = .ok m) ↔
        operands.length = operator.arity ∧ (window = none ∨ operator.acceptsInterval = true)) ∧
      (∀ m, ofParts operator operands window = .ok m → Constructed operator operands window m ∧
        m.operator = operator ∧ m.children = operands ∧ m.window? = window) ∧
      (operands.length ≠ operator.arity → ofParts operator operands window =
        .error (.arity operator.label operator.arity operands.length)) ∧
      (operands.length = operator.arity → window ≠ none → operator.acceptsInterval = false →
        ofParts operator operands window = .error (.unexpectedInterval operator.label)) ∧
      Tree.ofParts operator (operands.map tree) (window.map Interval.bounds) =
        (ofParts operator operands window).map tree := by
  refine ⟨fun f => ?_, fun operator operands window => ?_⟩
  · have hparts := f.constructed_refreshed
    obtain ⟨hoperator, hchildren, hwindow⟩ := hparts.views
    exact ⟨f.refreshed, ofParts_eq_ok_iff_constructed.mpr hparts, hoperator, hchildren, hwindow,
      f.horizon_refreshed, f.evaluator?_refreshed,
      f.refreshed_beq_iff.trans forall_evaluator?_iff.symm⟩
  · refine ⟨exists_ofParts_iff, fun m hm => ?_, ofParts_of_length_ne, ofParts_of_window,
      ofParts_tree operator operands window⟩
    have hconstructed := ofParts_eq_ok_iff_constructed.mp hm
    exact ⟨hconstructed, hconstructed.views⟩

/-- A comparison of two speeds that the native backend evaluates. -/
def outpaced : Formula :=
  .binary (.comparison .less .native) (.ofVariable (.named "own")) (.ofVariable (.named "other"))
    (some 2)

/-- The comparison comes back with the reference backend, hence as another formula. Two operands
are too many for a negation, and a window is one too many in any case. -/
theorem ofParts_inverse_outpaced :
    (∃ m, ofParts outpaced.operator outpaced.children outpaced.window? = .ok m ∧
      m.horizon = none ∧ (m == outpaced) = false) ∧
    ofParts .not [outpaced, outpaced] (some (.upTo 1)) = .error (.arity "not" 1 2) ∧
    ofParts .not [outpaced] (some (.upTo 1)) = .error (.unexpectedInterval "not") := by
  obtain ⟨hparts, hchecked⟩ := ofParts_inverse
  refine ⟨?_, ?_, ?_⟩
  · obtain ⟨m, hm, -, -, -, hhorizon, -, hbeq⟩ := hparts outpaced
    refine ⟨m, hm, hhorizon, ?_⟩
    rw [Bool.eq_false_iff, Ne, hbeq]
    intro hreference
    cases hreference _ rfl
  · exact (hchecked .not [outpaced, outpaced] (some (.upTo 1))).2.2.1 (by decide)
  · exact (hchecked .not [outpaced] (some (.upTo 1))).2.2.2.1 rfl nofun rfl

end Formula

end SignalLogic
