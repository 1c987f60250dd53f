import SignalLogic.Proofs.Assembly.Representation
import SignalLogic.Proofs.Selection

/-!
# Attachment of backends

A backend is attached to the nodes of a formula one after the other, in pre-order. The first
evaluated node tells whether the build has the backend, and the nodes before it have none to
replace. So attachment that is carried out in place replaces every backend or leaves all nodes
as they were.
-/

namespace SignalLogic

variable {build : Build} {backend : Backend}

/-- Parts that accept an unavailable backend have no evaluator to replace. -/
theorem Parts.eq_of_select (h : ¬ backend.isAvailable build = true) {p p' : Parts}
    (hp : p.select build backend = .ok p') : p' = p := by
  unfold select at hp
  cases he : p.evaluator with
  | none =>
      rw [he] at hp
      exact (Except.ok.inj hp).symm
  | some e =>
      rw [he] at hp
      obtain ⟨e', hselect, -⟩ := except_bind_eq_ok_iff.mp hp
      exact absurd (Evaluator.select_eq_ok_iff.mp hselect).1 h

namespace Tree

/-- Attach a backend in place to every node, in pre-order, as far as that succeeds. -/
def attach (build : Build) (backend : Backend) : Tree → Tree × Except UnavailableBackend Unit
  | leaf root =>
      match root.select build backend with
      | .ok root => (leaf root, .ok ())
      | .error e => (leaf root, .error e)
  | unary root operand =>
      match root.select build backend with
      | .ok root =>
          let (operand, outcome) := operand.attach build backend
          (unary root operand, outcome)
      | .error e => (unary root operand, .error e)
  | binary root left right =>
      match root.select build backend with
      | .ok root =>
          match left.attach build backend with
          | (left, .ok ()) =>
              let (right, outcome) := right.attach build backend
              (binary root left right, outcome)
          | (left, .error e) => (binary root left right, .error e)
      | .error e => (binary root left right, .error e)

/-- Attachment in place has the outcome of the selection for all nodes. -/
theorem withBackend_eq_attach (t : Tree) :
    t.withBackend build backend =
      (t.attach build backend).2.map fun _ => (t.attach build backend).1 := by
  induction t with
  | leaf root =>
      rw [withBackend, attach]
      cases root.select build backend <;> rfl
  | unary root operand ih =>
      rw [withBackend, attach, ih]
      cases root.select build backend with
      | error e => rfl
      | ok root =>
          rcases operand.attach build backend with ⟨operand, _ | _⟩ <;> rfl
  | binary root left right ihl ihr =>
      rw [withBackend, attach, ihl, ihr]
      cases root.select build backend with
      | error e => rfl
      | ok root =>
          rcases left.attach build backend with ⟨left, _ | _⟩
          · rfl
          · rcases right.attach build backend with ⟨right, _ | _⟩ <;> rfl

/-- An unavailable backend leaves every tree as it was. -/
theorem attach_of_unavailable (h : ¬ backend.isAvailable build = true) (t : Tree) :
    (t.attach build backend).1 = t := by
  induction t with
  | leaf root =>
      rw [attach]
      cases hroot : root.select build backend with
      | error e => rfl
      | ok root' => rw [Parts.eq_of_select h hroot]
  | unary root operand ih =>
      rw [attach]
      cases hroot : root.select build backend with
      | error e => rfl
      | ok root' =>
          rw [Parts.eq_of_select h hroot]
          exact congrArg (unary root) ih
  | binary root left right ihl ihr =>
      rw [attach]
      cases hroot : root.select build backend with
      | error e => rfl
      | ok root' =>
          rw [Parts.eq_of_select h hroot]
          rcases hleft : left.attach build backend with ⟨left', _ | _⟩
          · rw [hleft] at ihl
            exact congrArg (binary root · right) ihl
          · rw [hleft] at ihl
            exact congrArg₂ (binary root) ihl ihr

end Tree

/-- The second node has the given backend where it is evaluated, and all else of the first. -/
structure Reattached (backend : Backend) (f g : Formula) : Prop where
  evaluator : g.evaluator? = f.evaluator?.map fun e => ⟨backend, e.operation⟩
  operator : g.operator = f.operator
  window : g.window? = f.window?
  horizon : g.horizon = f.horizon
  operands : g.children.length = f.children.length
  name : g.name = f.name

namespace Formula

theorem chars_on (backend : Backend) (f : Formula) : (f.on backend).chars = f.chars := by
  induction f with
  | leaf op h => cases op <;> rfl
  | unary op operand h ih =>
      have hroot : (op.on backend).chars = op.chars := by cases op <;> rfl
      rw [on, chars, chars, hroot, ih]
  | binary op left right h ihl ihr =>
      have hroot : (op.on backend).chars = op.chars := by cases op <;> rfl
      rw [on, chars, chars, hroot, ihl, ihr]

theorem reattached_on (backend : Backend) (f : Formula) : Reattached backend f (f.on backend) where
  evaluator := by
    cases f with
    | leaf op _ => exact evaluator?_leaf_on ..
    | unary op _ _ => exact evaluator?_unary_on ..
    | binary op _ _ _ => exact evaluator?_binary_on ..
  operator := by
    cases f with
    | leaf op _ => exact op.operator_on backend
    | unary op _ _ => exact op.operator_on backend
    | binary op _ _ _ => exact op.operator_on backend
  window := by
    cases f with
    | leaf op _ => rfl
    | unary op _ _ => cases op <;> rfl
    | binary op _ _ _ => cases op <;> rfl
  horizon := by cases f <;> rfl
  operands := by cases f <;> rfl
  name := by rw [name, name, chars_on]

theorem nodes_on (backend : Backend) (f : Formula) :
    (f.on backend).nodes = f.nodes.map (on backend) := by
  rw [nodes_eq_subformulas, nodes_eq_subformulas]
  induction f with
  | leaf op h => rfl
  | unary op operand h ih => simp [on, subformulas, ih]
  | binary op left right h ihl ihr => simp [on, subformulas, ihl, ihr]

/-- The operation of the first evaluated node is found in pre-order. -/
theorem firstOperation?_eq_findSome? (f : Formula) :
    f.firstOperation? = f.nodes.findSome? fun g => g.evaluator?.map Evaluator.operation := by
  rw [firstOperation?, evaluated, List.head?_filterMap, List.map_findSome?, nodes_eq_subformulas]
  refine congrArg (f.subformulas.findSome? ·) (funext fun g => ?_)
  cases h : g.evaluator? <;> simp [evaluation?, h]

/-- Attachment in place replaces every backend, or it fails and leaves the formula as it was. -/
theorem attach_tree (f : Formula) :
    f.tree.attach build backend =
      match f.withBackend build backend with
      | .ok g => (g.tree, .ok ())
      | .error e => (f.tree, .error e) := by
  have hattach : f.tree.withBackend build backend = _ := f.tree.withBackend_eq_attach
  rw [withBackend_tree] at hattach
  rcases h : f.tree.attach build backend with ⟨t, e | _⟩
  · have hunavailable : ¬ backend.isAvailable build = true := by
      intro havailable
      rw [withBackend_of_available havailable, h] at hattach
      cases hattach
    have ht := f.tree.attach_of_unavailable hunavailable
    rw [h] at hattach ht
    cases hf : f.withBackend build backend with
    | ok g =>
        rw [hf] at hattach
        cases hattach
    | error e' =>
        rw [hf] at hattach
        cases hattach
        exact congrArg (·, _) ht
  · rw [h] at hattach
    obtain ⟨g, hg, rfl⟩ := except_map_eq_ok_iff.mp hattach
    rw [hg]

/-- Attachment of a backend is all or nothing. It succeeds exactly when the build has the backend.
Then every evaluated node has the backend and the operation that it had before, and nothing else
has changed at any node. Otherwise the error holds the backend and the operation of the first
evaluated node in pre-order, and a formula whose nodes were to be changed in place is as it was. A
text is parsed with a backend as it is parsed without one, and what it stands for is then given
the backend; so the standard build refuses the native backend for every text that it parses. -/
theorem withBackend_all_or_nothing (build : Build) (b : Backend) :
    (∀ f : Formula,
      ((∃ g, f.withBackend build b = .ok g) ↔ b.isAvailable build = true) ∧
      (∀ g, f.withBackend build b = .ok g → List.Forall₂ (Reattached b) f.nodes g.nodes) ∧
      (∀ e, f.withBackend build b = .error e → e.backend = b ∧
        (f.nodes.findSome? fun g => g.evaluator?.map Evaluator.operation) = some e.operation) ∧
      f.tree.attach build b =
        match f.withBackend build b with
        | .ok g => (g.tree, .ok ())
        | .error e => (f.tree, .error e)) ∧
    (∀ text,
      (∀ e, parse text = .error e → parseWithBackend build b text = .error e) ∧
      ∀ f, parse text = .ok f →
        parseWithBackend build b text = (f.withBackend build b).mapError .unavailable) ∧
    ∀ text f, parse text = .ok f →
      ∃ e, e.backend = .native ∧ f.withBackend .standard .native = .error e ∧
        parseWithBackend .standard .native text = .error (.unavailable e) := by
  refine ⟨fun f => ?_, fun text => ⟨?_, ?_⟩, ?_⟩
  · by_cases h : b.isAvailable build = true
    · have hf := withBackend_of_available h f
      refine ⟨⟨fun _ => h, fun _ => ⟨_, hf⟩⟩, ?_, ?_, f.attach_tree⟩
      · intro g hg
        obtain rfl := Except.ok.inj (hf.symm.trans hg)
        rw [nodes_on, List.forall₂_map_right_iff, List.forall₂_same]
        exact fun g _ => g.reattached_on b
      · intro e he
        cases hf.symm.trans he
    · obtain ⟨k, hk, hf⟩ := f.withBackend_of_unavailable h
      refine ⟨⟨?_, fun h' => absurd h' h⟩, ?_, ?_, f.attach_tree⟩
      · rintro ⟨g, hg⟩
        cases hf.symm.trans hg
      · intro g hg
        cases hf.symm.trans hg
      · intro e he
        cases hf.symm.trans he
        exact ⟨rfl, (firstOperation?_eq_findSome? f).symm.trans hk⟩
  · intro e he
    rw [parseWithBackend, he]
    rfl
  · intro f hf
    rw [parseWithBackend, hf]
    rfl
  · intro text f hf
    have hnative : ¬ Backend.native.isAvailable .standard = true := nofun
    obtain ⟨k, -, hk⟩ := f.withBackend_of_unavailable hnative
    refine ⟨⟨.native, k⟩, rfl, hk, ?_⟩
    rw [parseWithBackend, hf]
    exact congrArg (Except.mapError ParseError.unavailable) hk

/-- The native backend is refused for the comparison, above which no node is evaluated, and the
formula keeps the backends that it had. A build with the backend gives it to every node. A text
that is parsed without the native backend is refused with it. -/
theorem withBackend_all_or_nothing_braking :
    (∃ g, braking.withBackend .native .native = .ok g ∧
      List.Forall₂ (Reattached .native) braking.nodes g.nodes) ∧
    braking.tree.attach .standard .native =
      (braking.tree, .error ⟨.native, .comparison .less⟩) ∧
    ∃ e, parseWithBackend .standard .native "eventually[0,3] brake" = .error (.unavailable e) := by
  have hnative := (withBackend_all_or_nothing .native .native).1 braking
  have hstandard := (withBackend_all_or_nothing .standard .native).1 braking
  have htext := (withBackend_all_or_nothing .standard .native).2.2 "eventually[0,3] brake"
  refine ⟨?_, hstandard.2.2.2, ?_⟩
  · obtain ⟨g, hg⟩ := hnative.1.mpr rfl
    exact ⟨g, hg, hnative.2.1 g hg⟩
  · have hparse : (parse "eventually[0,3] brake").toBool = true := by decide +kernel
    cases hf : parse "eventually[0,3] brake" with
    | error e =>
        rw [hf] at hparse
        cases hparse
    | ok f =>
        obtain ⟨e, -, -, he⟩ := htext f hf
        exact ⟨e, he⟩

end Formula

end SignalLogic
