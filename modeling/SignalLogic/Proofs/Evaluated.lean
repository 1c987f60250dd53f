import SignalLogic.Formula.Backends
import SignalLogic.Formula.Parts
import SignalLogic.Proofs.Demand
import SignalLogic.Proofs.Grammar.Readable
import SignalLogic.Proofs.LookAhead

/-!
# Evaluated nodes

The nodes that a single sample suffices to evaluate, each with its evaluator. The passes keep
them all in their order and add none. A formula is supported by a build that has the backends
of all these nodes, and every operation of the build makes supported formulas of such ones.
-/

namespace SignalLogic

/-- A computation succeeds with a result exactly when both of its stages do. -/
theorem except_bind_eq_ok_iff {ε α β : Type} {x : Except ε α} {f : α → Except ε β} {b : β} :
    (x >>= f) = .ok b ↔ ∃ a, x = .ok a ∧ f a = .ok b := by
  cases x <;> simp [bind, Except.bind]

theorem except_map_eq_ok_iff {ε α β : Type} {x : Except ε α} {f : α → β} {b : β} :
    x.map f = .ok b ↔ ∃ a, x = .ok a ∧ f a = b := by
  cases x <;> simp [Except.map]

namespace Formula

/-- An evaluator applies the operation of its node with the backend of its node. -/
theorem evaluator?_eq_some_iff {f : Formula} {e : Evaluator} :
    f.evaluator? = some e ↔
      f.backend? = some e.backend ∧ f.operator.operation? = some e.operation := by
  constructor
  · intro h
    obtain ⟨b, hb, h⟩ := Option.bind_eq_some_iff.mp h
    obtain ⟨k, hk, h⟩ := Option.bind_eq_some_iff.mp h
    cases h
    exact ⟨hb, hk⟩
  · rintro ⟨hb, hk⟩
    exact Option.bind_eq_some_iff.mpr ⟨_, hb, Option.bind_eq_some_iff.mpr ⟨_, hk, rfl⟩⟩

/-- The operator of the root and its evaluator, if it has one. -/
def evaluation? (f : Formula) : Option (Operator × Evaluator) :=
  f.evaluator?.map (f.operator, ·)

/-- The evaluated nodes in pre-order. -/
def evaluated (f : Formula) : List (Operator × Evaluator) :=
  f.subformulas.filterMap evaluation?

theorem evaluated_unary (op : UnaryOp) (operand : Formula) (h : Option Offset) :
    (unary op operand h).evaluated =
      (unary op operand h).evaluation?.toList ++ operand.evaluated := by
  cases hf : (unary op operand h).evaluation? <;> simp [evaluated, subformulas, hf]

theorem evaluated_binary (op : BinaryOp) (left right : Formula) (h : Option Offset) :
    (binary op left right h).evaluated =
      (binary op left right h).evaluation?.toList ++ (left.evaluated ++ right.evaluated) := by
  cases hf : (binary op left right h).evaluation? <;> simp [evaluated, subformulas, hf]

theorem evaluated_withHorizon (f : Formula) (h : Option Offset) :
    (f.withHorizon h).evaluated = f.evaluated := by
  cases f <;> rfl

theorem evaluated_mapHorizon (g : Formula → Option Offset) (f : Formula) :
    (f.mapHorizon g).evaluated = f.evaluated := by
  induction f with
  | leaf op h => rfl
  | unary op operand h ih =>
      rw [mapHorizon, evaluated_unary, evaluated_unary, ih]
      rfl
  | binary op left right h ihl ihr =>
      rw [mapHorizon, evaluated_binary, evaluated_binary, ihl, ihr]
      rfl

theorem evaluated_delayed (budget : Offset) (f : Formula) :
    (f.delayed budget).evaluated = f.evaluated := by
  unfold delayed
  split
  · rfl
  · exact evaluated_unary (.temporal .once _) f none

/-- Pastification keeps every evaluated node and adds none. -/
theorem evaluated_pastifyWithin (f : Formula) (budget : Offset) :
    (f.pastifyWithin budget).value.evaluated = f.evaluated := by
  induction f generalizing budget with
  | leaf op h =>
      cases op with
      | constant x b => rfl
      | «variable» v b => exact evaluated_delayed budget (leaf (.variable v b) none)
  | unary op operand h ih =>
      cases ha : op.lookAhead? with
      | none =>
          rw [value_pastifyWithin_unary ha, evaluated_unary, evaluated_unary, ih]
          rfl
      | some ahead =>
          obtain ⟨op, i, rfl, -, -, -⟩ := UnaryOp.lookAhead?_eq_some ha
          have hroot := evaluated_unary (.temporal op (some i)) operand h
          rw [value_pastifyWithin_ahead ha, hroot]
          dsimp only
          split
          · exact ih _
          · rw [unaryTemporal, evaluated_unary, ih]
            rfl
  | binary op left right h ihl ihr =>
      cases ha : op.lookAhead? with
      | none =>
          rw [value_pastifyWithin_binary ha, evaluated_binary, evaluated_binary, ihl, ihr]
          rfl
      | some ahead =>
          obtain ⟨rfl, -⟩ := BinaryOp.lookAhead?_eq_some ha
          rw [value_pastifyWithin_until ha, binaryTemporal, evaluated_binary, evaluated_binary,
            ihl, ihr]
          rfl

variable {build : Build} {backend : Backend} {f g : Formula} {horizon : Option Offset}

/-- All evaluated nodes use backends that the build has. -/
def SupportedBy (build : Build) (f : Formula) : Prop :=
  ∀ e ∈ f.evaluated, e.2.backend.isAvailable build = true

/-- The evaluator of the root, if it has one, uses a backend that the build has. -/
def RootSupportedBy (build : Build) (f : Formula) : Prop :=
  ∀ e, f.evaluator? = some e → e.backend.isAvailable build = true

theorem rootSupportedBy_iff :
    f.RootSupportedBy build ↔
      ∀ e ∈ f.evaluation?.toList, e.2.backend.isAvailable build = true := by
  cases h : f.evaluator? <;> simp [RootSupportedBy, evaluation?, h]

/-- Support is a matter of each node. -/
theorem supportedBy_iff :
    f.SupportedBy build ↔ ∀ g ∈ f.subformulas, g.RootSupportedBy build := by
  simp only [SupportedBy, evaluated, List.mem_filterMap, rootSupportedBy_iff, Option.mem_toList]
  exact ⟨fun h g hg e he => h e ⟨g, hg, he⟩, fun h e ⟨g, hg, he⟩ => h g hg e he⟩

theorem supportedBy_leaf_iff {op : LeafOp} :
    (leaf op horizon).SupportedBy build ↔ (leaf op horizon).RootSupportedBy build := by
  simp [supportedBy_iff, subformulas]

theorem supportedBy_unary_iff {op : UnaryOp} :
    (unary op f horizon).SupportedBy build ↔
      (unary op f horizon).RootSupportedBy build ∧ f.SupportedBy build := by
  simp [supportedBy_iff, subformulas]

theorem supportedBy_binary_iff {op : BinaryOp} :
    (binary op f g horizon).SupportedBy build ↔
      (binary op f g horizon).RootSupportedBy build ∧
        f.SupportedBy build ∧ g.SupportedBy build := by
  simp [supportedBy_iff, subformulas, or_imp, forall_and]

theorem SupportedBy.of_mem_subformulas (hf : f.SupportedBy build) (hg : g ∈ f.subformulas) :
    g.SupportedBy build := by
  induction f with
  | leaf op h =>
      obtain rfl := List.mem_singleton.mp hg
      exact hf
  | unary op operand h ih =>
      rcases List.mem_cons.mp hg with rfl | hg
      · exact hf
      · exact ih (supportedBy_unary_iff.mp hf).2 hg
  | binary op left right h ihl ihr =>
      obtain ⟨-, hl, hr⟩ := supportedBy_binary_iff.mp hf
      rcases List.mem_cons.mp hg with rfl | hg
      · exact hf
      · rcases List.mem_append.mp hg with hg | hg
        · exact ihl hl hg
        · exact ihr hr hg

/-- Every build has the reference backend. -/
theorem rootSupportedBy_of_ne_native (h : f.backend? ≠ some .native) :
    f.RootSupportedBy build := by
  intro e he
  rw [(evaluator?_eq_some_iff.mp he).1] at h
  cases hb : e.backend with
  | reference => rfl
  | native => exact absurd (congrArg some hb) h

/-- Formulas without native nodes are supported by every build. -/
theorem supportedBy_of_plain (h : f.All PlainNode) : f.SupportedBy build := by
  refine supportedBy_iff.mpr fun g hg => rootSupportedBy_of_ne_native ?_
  rw [← nodes_eq_subformulas] at hg
  exact (plainNode_iff.mp (h g hg)).1

theorem supportedBy_leaf {op : LeafOp} (h : op.backend ≠ .native) :
    (leaf op horizon).SupportedBy build :=
  supportedBy_leaf_iff.mpr (rootSupportedBy_of_ne_native fun hb => h (Option.some.inj hb))

theorem supportedBy_unary {op : UnaryOp} (h : op.backend? ≠ some .native)
    (hf : f.SupportedBy build) : (unary op f horizon).SupportedBy build :=
  supportedBy_unary_iff.mpr ⟨rootSupportedBy_of_ne_native h, hf⟩

theorem supportedBy_binary {op : BinaryOp} (h : op.backend? ≠ some .native)
    (hf : f.SupportedBy build) (hg : g.SupportedBy build) :
    (binary op f g horizon).SupportedBy build :=
  supportedBy_binary_iff.mpr ⟨rootSupportedBy_of_ne_native h, hf, hg⟩

/-- What is assembled comes from the typed constructor, with a window only where one is
accepted. -/
theorem ofParts_eq_ok_iff_assemble? {operator : Operator} {operands : List Formula}
    {window : Option Interval} :
    ofParts operator operands window = .ok f ↔
      assemble? operator operands window = some f ∧
        (window = none ∨ operator.acceptsInterval = true) := by
  unfold ofParts
  cases assemble? operator operands window with
  | none => simp
  | some g => cases window <;> cases operator.acceptsInterval <;> simp

/-- What is assembled is fresh. -/
theorem supportedBy_of_ofParts {operator : Operator} {operands : List Formula}
    {window : Option Interval} (h : ofParts operator operands window = .ok f)
    (hoperands : ∀ g ∈ operands, g.SupportedBy build) : f.SupportedBy build := by
  have hf := (ofParts_eq_ok_iff_assemble?.mp h).1
  unfold assemble? at hf
  split at hf <;> cases hf
  case h_1 | h_2 => exact supportedBy_leaf nofun
  case h_3 | h_6 | h_8 | h_9 => exact supportedBy_unary nofun (hoperands _ (by simp))
  all_goals exact supportedBy_binary nofun (hoperands _ (by simp)) (hoperands _ (by simp))

theorem rootSupportedBy_of_select {k : Operation} {e : Evaluator}
    (he : Evaluator.select build backend k = .ok e) (hf : f.backend? = some e.backend) :
    f.RootSupportedBy build := by
  obtain ⟨havailable, rfl⟩ := Evaluator.select_eq_ok_iff.mp he
  intro e' he'
  have hbackend := hf.symm.trans (evaluator?_eq_some_iff.mp he').1
  rwa [← Option.some.inj hbackend]

theorem rootSupportedBy_of_select_leaf {op op' : LeafOp}
    (h : op.select build backend = .ok op') : (leaf op' horizon).RootSupportedBy build := by
  cases op with
  | constant x b | «variable» v b =>
      obtain ⟨e, he, hop⟩ := except_bind_eq_ok_iff.mp h
      cases hop
      exact rootSupportedBy_of_select he rfl

theorem rootSupportedBy_of_select_unary {op op' : UnaryOp}
    (h : op.select build backend = .ok op') : (unary op' f horizon).RootSupportedBy build := by
  cases op with
  | abs b =>
      obtain ⟨e, he, hop⟩ := except_bind_eq_ok_iff.mp h
      cases hop
      exact rootSupportedBy_of_select he rfl
  | not | edge op | temporal op window =>
      cases h
      exact rootSupportedBy_of_ne_native nofun

theorem rootSupportedBy_of_select_binary {op op' : BinaryOp}
    (h : op.select build backend = .ok op') : (binary op' f g horizon).RootSupportedBy build := by
  cases op with
  | arithmetic op b | comparison op b =>
      obtain ⟨e, he, hop⟩ := except_bind_eq_ok_iff.mp h
      cases hop
      exact rootSupportedBy_of_select he rfl
  | logic op | temporal op window =>
      cases h
      exact rootSupportedBy_of_ne_native nofun

/-- A backend that is selected for the root is one that the build has. -/
theorem SupportedBy.usingBackend (hf : f.SupportedBy build)
    (h : f.usingBackend build backend = .ok g) : g.SupportedBy build := by
  cases f with
  | leaf op horizon =>
      obtain ⟨op', hop, hg⟩ := except_bind_eq_ok_iff.mp h
      cases hg
      exact supportedBy_leaf_iff.mpr (rootSupportedBy_of_select_leaf hop)
  | unary op operand horizon =>
      obtain ⟨op', hop, hg⟩ := except_bind_eq_ok_iff.mp h
      cases hg
      have hoperand := (supportedBy_unary_iff.mp hf).2
      exact supportedBy_unary_iff.mpr ⟨rootSupportedBy_of_select_unary hop, hoperand⟩
  | binary op left right horizon =>
      obtain ⟨op', hop, hg⟩ := except_bind_eq_ok_iff.mp h
      cases hg
      have hoperands := (supportedBy_binary_iff.mp hf).2
      exact supportedBy_binary_iff.mpr ⟨rootSupportedBy_of_select_binary hop, hoperands⟩

/-- A backend that is selected for every node is one that the build has. -/
theorem supportedBy_of_withBackend (h : f.withBackend build backend = .ok g) :
    g.SupportedBy build := by
  induction f generalizing g with
  | leaf op horizon =>
      obtain ⟨op', hop, hg⟩ := except_bind_eq_ok_iff.mp h
      cases hg
      exact supportedBy_leaf_iff.mpr (rootSupportedBy_of_select_leaf hop)
  | unary op operand horizon ih =>
      obtain ⟨op', hop, h⟩ := except_bind_eq_ok_iff.mp h
      obtain ⟨operand', hoperand, hg⟩ := except_bind_eq_ok_iff.mp h
      cases hg
      exact supportedBy_unary_iff.mpr ⟨rootSupportedBy_of_select_unary hop, ih hoperand⟩
  | binary op left right horizon ihl ihr =>
      obtain ⟨op', hop, h⟩ := except_bind_eq_ok_iff.mp h
      obtain ⟨left', hleft, h⟩ := except_bind_eq_ok_iff.mp h
      obtain ⟨right', hright, hg⟩ := except_bind_eq_ok_iff.mp h
      cases hg
      exact supportedBy_binary_iff.mpr
        ⟨rootSupportedBy_of_select_binary hop, ihl hleft, ihr hright⟩

end Formula

end SignalLogic
