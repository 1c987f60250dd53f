import SignalLogic.Proofs.Assembly.Representation
import SignalLogic.Proofs.Evaluated

/-!
# Sound trees

A node of a tree is sound for a build when its parts fit together. The trees of sound nodes
are exactly the layouts of formulas that the build supports: whatever the type of formulas
rules out is ruled out by soundness, and nothing else is.
-/

namespace SignalLogic

/-- The operators that a single sample suffices to evaluate. -/
def Operator.isPointwise : Operator → Bool
  | .constant _ | .variable _ | .abs | .arithmetic _ | .comparison _ => true
  | .not | .logic _ | .edge _ | .unaryTemporal _ | .binaryTemporal _ => false

theorem Operator.isSome_operation? (op : Operator) : op.operation?.isSome = op.isPointwise := by
  cases op <;> rfl

/-- An operation consumes a value of each operand, and that of a variable the sample. -/
theorem Operator.arity_of_operation? {op : Operator} {k : Operation} :
    op.operation? = some k → k.arity = match op with
      | .variable _ => 1
      | _ => op.arity := by
  intro h
  cases op <;> cases h <;> rfl

/-- Operators with windows look beyond a single sample. -/
theorem Operator.acceptsInterval_of_operation? {op : Operator} {k : Operation}
    (h : op.operation? = some k) : op.acceptsInterval = false := by
  cases op <;> cases h <;> rfl

namespace Tree

/-- Number of values that the root hands to its evaluator: one for each operand, and the
sample itself for a variable. -/
def inputs (t : Tree) : Nat :=
  match t.root.operator with
  | .variable _ => 1
  | _ => t.children.length

/-- The parts of the root fit together and belong to the build. -/
structure Sound (build : Build) (t : Tree) : Prop where
  /-- There are as many operands as the operator has. -/
  operands : t.children.length = t.root.operator.arity
  /-- There is an evaluator exactly where a single sample suffices. -/
  evaluated : t.root.evaluator.isSome = t.root.operator.isPointwise
  /-- The evaluator applies the operation of the operator. -/
  operation : ∀ e, t.root.evaluator = some e → t.root.operator.operation? = some e.operation
  /-- The evaluator consumes the values that the root hands to it. -/
  arity : ∀ e, t.root.evaluator = some e → e.operation.arity = t.inputs
  /-- Only temporal operators with windows have one. -/
  window : t.root.window.isSome → t.root.operator.acceptsInterval = true
  /-- The ends of the window are in order. -/
  ordered : ∀ w, t.root.window = some w → Endpoint.finite w.lower ≤ w.upper
  /-- Native evaluators are found in native builds alone. -/
  native : ∀ e, t.root.evaluator = some e → e.backend = .native → build = .native

namespace Sound

variable {build : Build} {t : Tree} {k : Operation}

theorem evaluator_eq_none (h : t.Sound build) (ho : t.root.operator.operation? = none) :
    t.root.evaluator = none := by
  have hsome := h.evaluated
  rw [← Operator.isSome_operation?, ho] at hsome
  exact Option.isNone_iff_eq_none.mp (Option.isSome_eq_false_iff.mp hsome)

theorem exists_backend (h : t.Sound build) (ho : t.root.operator.operation? = some k) :
    ∃ b, t.root.evaluator = some ⟨b, k⟩ := by
  have hsome := h.evaluated
  rw [← Operator.isSome_operation?, ho] at hsome
  obtain ⟨e, he⟩ := Option.isSome_iff_exists.mp hsome
  have hk := h.operation e he
  rw [ho] at hk
  exact ⟨e.backend, by rw [he, Option.some.inj hk]⟩

theorem window_eq_none (h : t.Sound build) (ho : t.root.operator.acceptsInterval = false) :
    t.root.window = none := by
  cases hw : t.root.window with
  | none => rfl
  | some w =>
      have haccepts := h.window (by rw [hw]; rfl)
      rw [ho] at haccepts
      cases haccepts

/-- An evaluated root is free in its backend and its horizon. -/
theorem root_of_evaluated (h : t.Sound build) (hk : t.root.operator.operation? = some k) :
    ∃ b, t.root =
      { operator := t.root.operator, evaluator := some ⟨b, k⟩, horizon := t.root.horizon } := by
  obtain ⟨b, hb⟩ := h.exists_backend hk
  have hw := h.window_eq_none (Operator.acceptsInterval_of_operation? hk)
  exact ⟨b, by rw [← hb, ← hw]⟩

/-- A temporal root is free in its window and its horizon. -/
theorem root_of_temporal (h : t.Sound build) (hk : t.root.operator.operation? = none) :
    ∃ i : Option Interval, t.root =
      { operator := t.root.operator, window := i.map Interval.bounds,
        horizon := t.root.horizon } := by
  have he := h.evaluator_eq_none hk
  cases hw : t.root.window with
  | none => exact ⟨none, by rw [← he, Option.map_none, ← hw]⟩
  | some w =>
      refine ⟨some ⟨w.lower, w.upper, h.ordered w hw⟩, ?_⟩
      rw [← he, Option.map_some, Interval.bounds, ← hw]

/-- Any other root is free in its horizon. -/
theorem root_of_logical (h : t.Sound build) (hk : t.root.operator.operation? = none)
    (ho : t.root.operator.acceptsInterval = false) :
    t.root = { operator := t.root.operator, horizon := t.root.horizon } := by
  rw [← h.evaluator_eq_none hk, ← h.window_eq_none ho]

end Sound

end Tree

namespace Formula

variable {build : Build} {f : Formula} {e : Evaluator}

theorem isSome_evaluator? (f : Formula) : f.evaluator?.isSome = f.operator.isPointwise := by
  have hbackend := f.isSome_backend?
  rw [← Operator.isSome_operation?]
  cases hk : f.operator.operation? with
  | none => cases hb : f.backend? <;> simp [evaluator?, hk, hb]
  | some k =>
      rw [hk] at hbackend
      obtain ⟨b, hb⟩ := Option.isSome_iff_exists.mp hbackend
      simp [evaluator?, hk, hb]

/-- An evaluator consumes as many values as its node hands to it. -/
theorem arity_of_evaluator? (h : f.evaluator? = some e) : e.operation.arity = f.tree.inputs := by
  rw [Tree.inputs, children_tree, List.length_map, length_children, root_tree]
  exact Operator.arity_of_operation? (evaluator?_eq_some_iff.mp h).2

/-- The layout of a node is sound if the build supports the node. -/
theorem sound_tree (hf : f.RootSupportedBy build) : f.tree.Sound build where
  operands := by simp [parts]
  evaluated := by simp [parts, isSome_evaluator?]
  operation e he := by
    rw [root_tree] at he ⊢
    exact (evaluator?_eq_some_iff.mp he).2
  arity e he := by
    rw [root_tree] at he
    exact arity_of_evaluator? he
  window h := by
    rw [root_tree] at h ⊢
    obtain ⟨i, hi⟩ := Option.isSome_iff_exists.mp ((Option.isSome_map ..).symm.trans h)
    exact acceptsInterval_of_window? hi
  ordered w hw := by
    rw [root_tree] at hw
    obtain ⟨i, -, rfl⟩ := Option.map_eq_some_iff.mp hw
    exact i.ordered
  native e he hnative := by
    rw [root_tree] at he
    have havailable := hf e he
    rw [hnative] at havailable
    exact of_decide_eq_true havailable

theorem exists_leaf {root : Parts} (h : (Tree.leaf root).Sound build) :
    ∃ op, (leaf op root.horizon).parts = root := by
  have hcount := h.operands
  obtain ⟨operator, window, evaluator, horizon⟩ := root
  cases operator with
  | constant x =>
      obtain ⟨b, hroot⟩ := h.root_of_evaluated rfl
      exact ⟨.constant x b, hroot.symm⟩
  | «variable» v =>
      obtain ⟨b, hroot⟩ := h.root_of_evaluated rfl
      exact ⟨.variable v b, hroot.symm⟩
  | _ => cases hcount

theorem exists_unary {root : Parts} {operand : Tree} (h : (Tree.unary root operand).Sound build) :
    ∃ op, ∀ f, (unary op f root.horizon).parts = root := by
  have hcount := h.operands
  obtain ⟨operator, window, evaluator, horizon⟩ := root
  cases operator with
  | abs =>
      obtain ⟨b, hroot⟩ := h.root_of_evaluated rfl
      exact ⟨.abs b, fun _ => hroot.symm⟩
  | not => exact ⟨.not, fun _ => (h.root_of_logical rfl rfl).symm⟩
  | edge op => exact ⟨.edge op, fun _ => (h.root_of_logical rfl rfl).symm⟩
  | unaryTemporal op =>
      obtain ⟨i, hroot⟩ := h.root_of_temporal rfl
      exact ⟨.temporal op i, fun _ => hroot.symm⟩
  | _ => cases hcount

theorem exists_binary {root : Parts} {left right : Tree}
    (h : (Tree.binary root left right).Sound build) :
    ∃ op, ∀ f g, (binary op f g root.horizon).parts = root := by
  have hcount := h.operands
  obtain ⟨operator, window, evaluator, horizon⟩ := root
  cases operator with
  | arithmetic op =>
      obtain ⟨b, hroot⟩ := h.root_of_evaluated rfl
      exact ⟨.arithmetic op b, fun _ _ => hroot.symm⟩
  | comparison op =>
      obtain ⟨b, hroot⟩ := h.root_of_evaluated rfl
      exact ⟨.comparison op b, fun _ _ => hroot.symm⟩
  | logic op => exact ⟨.logic op, fun _ _ => (h.root_of_logical rfl rfl).symm⟩
  | binaryTemporal op =>
      obtain ⟨i, hroot⟩ := h.root_of_temporal rfl
      exact ⟨.temporal op i, fun _ _ => hroot.symm⟩
  | _ => cases hcount

/-- A node with the parts of a sound tree is supported. -/
theorem rootSupportedBy_of_sound {t : Tree} (h : t.Sound build) (hf : f.parts = t.root) :
    f.RootSupportedBy build := by
  intro e he
  have hroot : t.root.evaluator = some e := by rw [← hf]; exact he
  cases hb : e.backend with
  | reference => rfl
  | native => exact decide_eq_true (h.native e hroot hb)

/-- The trees of sound nodes are the layouts of the supported formulas. -/
theorem exists_tree_iff_sound {t : Tree} :
    (∃ f : Formula, f.SupportedBy build ∧ f.tree = t) ↔ ∀ s ∈ t.nodes, s.Sound build := by
  constructor
  · rintro ⟨f, hf, rfl⟩ s hs
    rw [nodes_tree] at hs
    obtain ⟨g, hg, rfl⟩ := List.mem_map.mp hs
    exact sound_tree (supportedBy_iff.mp hf g hg)
  · intro h
    induction t with
    | leaf root =>
        have hroot := h _ List.mem_cons_self
        obtain ⟨op, hop⟩ := exists_leaf hroot
        have hsupported := rootSupportedBy_of_sound hroot hop
        exact ⟨_, supportedBy_leaf_iff.mpr hsupported, congrArg Tree.leaf hop⟩
    | unary root operand ih =>
        have hroot := h _ List.mem_cons_self
        obtain ⟨f, hf, rfl⟩ := ih fun s hs => h s (List.mem_cons_of_mem _ hs)
        obtain ⟨op, hop⟩ := exists_unary hroot
        have hsupported := rootSupportedBy_of_sound hroot (hop f)
        exact ⟨_, supportedBy_unary_iff.mpr ⟨hsupported, hf⟩,
          congrArg (Tree.unary · f.tree) (hop f)⟩
    | binary root left right ihl ihr =>
        have hroot := h _ List.mem_cons_self
        obtain ⟨f, hf, rfl⟩ := ihl fun s hs =>
          h s (List.mem_cons_of_mem _ (List.mem_append_left _ hs))
        obtain ⟨g, hg, rfl⟩ := ihr fun s hs =>
          h s (List.mem_cons_of_mem _ (List.mem_append_right _ hs))
        obtain ⟨op, hop⟩ := exists_binary hroot
        have hsupported := rootSupportedBy_of_sound hroot (hop f g)
        exact ⟨_, supportedBy_binary_iff.mpr ⟨hsupported, hf, hg⟩,
          congrArg (Tree.binary · f.tree g.tree) (hop f g)⟩

end Formula

end SignalLogic
