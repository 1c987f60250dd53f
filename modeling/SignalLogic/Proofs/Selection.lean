import SignalLogic.Proofs.Assembly.Simulation
import SignalLogic.Proofs.Evaluated

/-!
# Selection of backends

Selecting a backend for a whole formula replaces every backend, or it fails and blames the
operation of the first evaluated node. The passes keep the evaluated nodes in their order, so
it makes no difference whether a backend is selected before or after them. Of several backends
that are selected one after the other the last one counts.
-/

namespace SignalLogic

variable {build : Build} {backend : Backend}

/-- The same leaf with another backend. -/
def LeafOp.on (backend : Backend) : LeafOp → LeafOp
  | .constant value _ => .constant value backend
  | .variable v _ => .variable v backend

/-- The same operator with another backend, if it has one. -/
def UnaryOp.on (backend : Backend) : UnaryOp → UnaryOp
  | .abs _ => .abs backend
  | op => op

/-- The same operator with another backend, if it has one. -/
def BinaryOp.on (backend : Backend) : BinaryOp → BinaryOp
  | .arithmetic op _ => .arithmetic op backend
  | .comparison op _ => .comparison op backend
  | op => op

section Roots

variable (op : LeafOp) (u : UnaryOp) (c : BinaryOp) (b b' : Backend) (operands : Option Offset)

@[simp] theorem LeafOp.operator_on : (op.on b).operator = op.operator := by
  cases op <;> rfl

@[simp] theorem UnaryOp.operator_on : (u.on b).operator = u.operator := by
  cases u <;> rfl

@[simp] theorem BinaryOp.operator_on : (c.on b).operator = c.operator := by
  cases c <;> rfl

@[simp] theorem UnaryOp.lookAhead?_on : (u.on b).lookAhead? = u.lookAhead? := by
  cases u <;> rfl

@[simp] theorem BinaryOp.lookAhead?_on : (c.on b).lookAhead? = c.lookAhead? := by
  cases c <;> rfl

@[simp] theorem UnaryOp.horizon_on : (u.on b).horizon operands = u.horizon operands := by
  cases u <;> rfl

@[simp] theorem BinaryOp.horizon_on : (c.on b).horizon operands = c.horizon operands := by
  cases c <;> rfl

@[simp] theorem LeafOp.on_on : (op.on b).on b' = op.on b' := by
  cases op <;> rfl

@[simp] theorem UnaryOp.on_on : (u.on b).on b' = u.on b' := by
  cases u <;> rfl

@[simp] theorem BinaryOp.on_on : (c.on b).on b' = c.on b' := by
  cases c <;> rfl

end Roots

/-- The outcome at a node that evaluates the given operation, or none: an available backend is
taken over, and an unavailable one is refused where it is needed. -/
def selection {α : Type} (build : Build) (backend : Backend) (operation? : Option Operation)
    (replaced kept : α) : Except UnavailableBackend α :=
  if backend.isAvailable build then .ok replaced
  else operation?.elim (.ok kept) fun k => .error ⟨backend, k⟩

theorem LeafOp.select_eq (op : LeafOp) :
    op.select build backend =
      selection build backend op.operator.operation? (op.on backend) op := by
  cases op <;> rw [select, Evaluator.select, selection] <;> split <;> rfl

theorem UnaryOp.select_eq (op : UnaryOp) :
    op.select build backend =
      selection build backend op.operator.operation? (op.on backend) op := by
  cases op with
  | abs => rw [select, Evaluator.select, selection]; split <;> rfl
  | not | edge | temporal => rw [selection]; split <;> rfl

theorem BinaryOp.select_eq (op : BinaryOp) :
    op.select build backend =
      selection build backend op.operator.operation? (op.on backend) op := by
  cases op with
  | arithmetic | comparison => rw [select, Evaluator.select, selection]; split <;> rfl
  | logic | temporal => rw [selection]; split <;> rfl

namespace Formula

/-- The same formula with another backend for every node that has one. -/
def on (backend : Backend) : Formula → Formula
  | leaf op h => leaf (op.on backend) h
  | unary op operand h => unary (op.on backend) (operand.on backend) h
  | binary op left right h => binary (op.on backend) (left.on backend) (right.on backend) h

section Evaluators

variable (b : Backend) (f g l l' r r' : Formula) (h h' : Option Offset)

/-- Whatever else stands at the node, its operator with another backend has the operation that it
had before. -/
theorem evaluator?_leaf_on (op : LeafOp) :
    (leaf (op.on b) h).evaluator? = (leaf op h').evaluator?.map fun e => ⟨b, e.operation⟩ := by
  cases op <;> rfl

theorem evaluator?_unary_on (op : UnaryOp) :
    (unary (op.on b) f h).evaluator? =
      (unary op g h').evaluator?.map fun e => ⟨b, e.operation⟩ := by
  cases op <;> rfl

theorem evaluator?_binary_on (op : BinaryOp) :
    (binary (op.on b) l r h).evaluator? =
      (binary op l' r' h').evaluator?.map fun e => ⟨b, e.operation⟩ := by
  cases op <;> rfl

end Evaluators

/-- The operation of the first evaluated node. -/
def firstOperation? (f : Formula) : Option Operation :=
  f.evaluated.head?.map fun e => e.2.operation

/-- A node is evaluated by the operation of its operator. -/
theorem operation_evaluation? (f : Formula) :
    (f.evaluation?.map fun e => e.2.operation) = f.operator.operation? := by
  have h := f.isSome_backend?
  unfold evaluation? evaluator?
  cases hb : f.backend? <;> cases ho : f.operator.operation? <;> simp_all

theorem firstOperation?_leaf (op : LeafOp) (h : Option Offset) :
    (leaf op h).firstOperation? = op.operator.operation? := by
  cases op <;> rfl

theorem firstOperation?_unary (op : UnaryOp) (operand : Formula) (h : Option Offset) :
    (unary op operand h).firstOperation? = op.operator.operation?.or operand.firstOperation? := by
  rw [firstOperation?, evaluated_unary, List.head?_append, Option.map_or, Option.head?_toList,
    operation_evaluation?, operator, firstOperation?]

theorem firstOperation?_binary (op : BinaryOp) (left right : Formula) (h : Option Offset) :
    (binary op left right h).firstOperation? =
      op.operator.operation?.or (left.firstOperation?.or right.firstOperation?) := by
  rw [firstOperation?, evaluated_binary, List.head?_append, List.head?_append, Option.map_or,
    Option.map_or, Option.head?_toList, operation_evaluation?, operator, firstOperation?,
    firstOperation?]

/-- An available backend replaces every other. -/
theorem withBackend_of_available (h : backend.isAvailable build = true) (f : Formula) :
    f.withBackend build backend = .ok (f.on backend) := by
  induction f with
  | leaf op _ =>
      rw [withBackend, LeafOp.select_eq, selection, if_pos h]
      rfl
  | unary op operand _ ih =>
      rw [withBackend, UnaryOp.select_eq, selection, if_pos h, ih]
      rfl
  | binary op left right _ ihl ihr =>
      rw [withBackend, BinaryOp.select_eq, selection, if_pos h, ihl, ihr]
      rfl

/-- An unavailable backend is refused at the first node that would use it. -/
theorem withBackend_of_unavailable (h : ¬ backend.isAvailable build = true) (f : Formula) :
    ∃ k, f.firstOperation? = some k ∧ f.withBackend build backend = .error ⟨backend, k⟩ := by
  induction f with
  | leaf op _ =>
      rw [withBackend, LeafOp.select_eq, selection, if_neg h, firstOperation?_leaf]
      cases op <;> exact ⟨_, rfl, rfl⟩
  | unary op operand _ ih =>
      rw [withBackend, UnaryOp.select_eq, selection, if_neg h, firstOperation?_unary]
      cases op.operator.operation? with
      | some k => exact ⟨k, rfl, rfl⟩
      | none =>
          obtain ⟨k, hk, hoperand⟩ := ih
          rw [hoperand]
          exact ⟨k, hk, rfl⟩
  | binary op left right _ ihl _ =>
      rw [withBackend, BinaryOp.select_eq, selection, if_neg h, firstOperation?_binary]
      cases op.operator.operation? with
      | some k => exact ⟨k, rfl, rfl⟩
      | none =>
          -- Every formula has an evaluated node, so the right operand is not reached.
          obtain ⟨k, hk, hleft⟩ := ihl
          rw [hleft, hk]
          exact ⟨k, rfl, rfl⟩

/-- Formulas with the same first operation refuse an unavailable backend alike. -/
theorem withBackend_eq_error (h : ¬ backend.isAvailable build = true) {f g : Formula}
    (hfirst : g.firstOperation? = f.firstOperation?) :
    ∃ e, f.withBackend build backend = .error e ∧ g.withBackend build backend = .error e := by
  obtain ⟨k, hk, hf⟩ := f.withBackend_of_unavailable h
  obtain ⟨k', hk', hg⟩ := g.withBackend_of_unavailable h
  obtain rfl : k = k' := Option.some.inj (hk.symm.trans (hfirst.symm.trans hk'))
  exact ⟨⟨backend, k⟩, hf, hg⟩

/-- A pass can be exchanged with the selection of backends when it looks at none and keeps the
first evaluated node first. -/
theorem map_withBackend {pass : Formula → Formula}
    (hon : ∀ f, pass (f.on backend) = (pass f).on backend)
    (hfirst : ∀ f, (pass f).firstOperation? = f.firstOperation?) (f : Formula) :
    pass <$> f.withBackend build backend = (pass f).withBackend build backend := by
  by_cases h : backend.isAvailable build = true
  · rw [withBackend_of_available h, withBackend_of_available h, ← hon]
    rfl
  · obtain ⟨e, hf, hpass⟩ := withBackend_eq_error h (hfirst f)
    rw [hf, hpass]
    rfl

theorem value_pastifyWithin_on (backend : Backend) (f : Formula) (budget : Offset) :
    ((f.on backend).pastifyWithin budget).value = (f.pastifyWithin budget).value.on backend := by
  induction f generalizing budget with
  | leaf op h =>
      cases op with
      | constant x b => rfl
      | «variable» v b =>
          change (leaf (.variable v backend) none).delayed budget =
            ((leaf (.variable v b) none).delayed budget).on backend
          unfold delayed
          split <;> rfl
  | unary op operand h ih =>
      rw [on]
      cases ha : op.lookAhead? with
      | none =>
          rw [value_pastifyWithin_unary ha,
            value_pastifyWithin_unary ((op.lookAhead?_on backend).trans ha), ih, on]
      | some ahead =>
          rw [value_pastifyWithin_ahead ha,
            value_pastifyWithin_ahead ((op.lookAhead?_on backend).trans ha)]
          simp only [ih]
          split <;> rfl
  | binary op left right h ihl ihr =>
      rw [on]
      cases ha : op.lookAhead? with
      | none =>
          rw [value_pastifyWithin_binary ha,
            value_pastifyWithin_binary ((op.lookAhead?_on backend).trans ha), ihl, ihr, on]
      | some ahead =>
          rw [value_pastifyWithin_until ha,
            value_pastifyWithin_until ((op.lookAhead?_on backend).trans ha), ihl, ihr]
          rfl

theorem firstOperation?_pastifyWithin (f : Formula) (budget : Offset) :
    (f.pastifyWithin budget).value.firstOperation? = f.firstOperation? := by
  rw [firstOperation?, evaluated_pastifyWithin, firstOperation?]

theorem demand_on (backend : Backend) (f : Formula) : (f.on backend).demand = f.demand := by
  induction f with
  | leaf op h => rw [on, demand_leaf, demand_leaf]
  | unary op operand h ih => rw [on, demand_unary, demand_unary, ih, op.horizon_on]
  | binary op left right h ihl ihr =>
      rw [on, demand_binary, demand_binary, ihl, ihr, op.horizon_on]

theorem value_computeHorizon_on (backend : Backend) (f : Formula) :
    (f.on backend).computeHorizon.value = f.computeHorizon.value.on backend := by
  rw [value_computeHorizon, value_computeHorizon, value_annotate, value_annotate]
  induction f with
  | leaf op h => rw [on, mapHorizon, mapHorizon, on, demand_leaf, demand_leaf]
  | unary op operand h ih =>
      have hroot := demand_on backend (unary op operand h)
      rw [on] at hroot ⊢
      rw [mapHorizon, mapHorizon, on, ih, hroot]
  | binary op left right h ihl ihr =>
      have hroot := demand_on backend (binary op left right h)
      rw [on] at hroot ⊢
      rw [mapHorizon, mapHorizon, on, ihl, ihr, hroot]

theorem firstOperation?_computeHorizon (f : Formula) :
    f.computeHorizon.value.firstOperation? = f.firstOperation? := by
  rw [value_computeHorizon, value_annotate, firstOperation?, evaluated_mapHorizon, firstOperation?]

/-- The last of several backends is all that can be told. -/
theorem on_on (b b' : Backend) (f : Formula) : (f.on b).on b' = f.on b' := by
  induction f with
  | leaf op h => rw [on, on, on, op.on_on]
  | unary op operand h ih => rw [on, on, on, op.on_on, ih]
  | binary op left right h ihl ihr => rw [on, on, on, op.on_on, ihl, ihr]

theorem firstOperation?_on (backend : Backend) (f : Formula) :
    (f.on backend).firstOperation? = f.firstOperation? := by
  induction f with
  | leaf op h => rw [on, firstOperation?_leaf, firstOperation?_leaf, op.operator_on]
  | unary op operand h ih =>
      rw [on, firstOperation?_unary, firstOperation?_unary, op.operator_on, ih]
  | binary op left right h ihl ihr =>
      rw [on, firstOperation?_binary, firstOperation?_binary, op.operator_on, ihl, ihr]

/-- A backend selected after another one is selected as if it were the only one. -/
theorem withBackend_withBackend {b b' : Backend} {f g : Formula}
    (h : f.withBackend build b = .ok g) : g.withBackend build b' = f.withBackend build b' := by
  have hb : b.isAvailable build = true := by
    by_contra hb
    obtain ⟨k, -, hf⟩ := f.withBackend_of_unavailable hb
    cases hf.symm.trans h
  obtain rfl : f.on b = g := Except.ok.inj ((withBackend_of_available hb f).symm.trans h)
  by_cases hb' : b'.isAvailable build = true
  · rw [withBackend_of_available hb', withBackend_of_available hb', on_on]
  · obtain ⟨e, hf, hg⟩ := withBackend_eq_error hb' (firstOperation?_on b f)
    rw [hf, hg]

/-- What holds of a pass over formulas holds of the pass over layouts that simulates it. -/
theorem map_withBackend_tree {α : Type} {pass : Formula → Formula} {run wrap : Tree → α}
    (hrun : ∀ f, run f.tree = wrap (pass f).tree) {f : Formula}
    (hpass : pass <$> f.withBackend build backend = (pass f).withBackend build backend) :
    run <$> f.tree.withBackend build backend =
      wrap <$> (pass f).tree.withBackend build backend := by
  have htree (g : Formula) :
      g.tree.withBackend build backend = tree <$> g.withBackend build backend :=
    withBackend_tree build backend g
  calc
    run <$> f.tree.withBackend build backend
      = (fun g => run g.tree) <$> f.withBackend build backend := by rw [htree, Functor.map_map]
    _ = (fun g => wrap g.tree) <$> pass <$> f.withBackend build backend := by
        rw [Functor.map_map]
        simp only [hrun]
    _ = wrap <$> (pass f).tree.withBackend build backend := by rw [hpass, htree, Functor.map_map]

/-- Selecting a backend can be exchanged with pastification and with the computation of
horizons, in every build: both orders yield the same formula with the same horizons, or they
refuse the same backend at the same operation. A backend that is selected after another one is
all that counts, also where it is refused. The same holds when every node is taken apart and
assembled again. -/
theorem withBackend_commutes (build : Build) (b b₁ b₂ : Backend) (n : Offset) (f : Formula) :
    let pastified (f : Formula) := (f.pastifyWithHorizon n).value
    let annotated (f : Formula) := f.computeHorizon.value
    pastified <$> f.withBackend build b = (pastified f).withBackend build b ∧
    annotated <$> f.withBackend build b = (annotated f).withBackend build b ∧
    (∀ g, f.withBackend build b₁ = .ok g → g.withBackend build b₂ = f.withBackend build b₂) ∧
    ∃ past, (f.tree.pastifyWithHorizon n).run.value = .ok past ∧
      (fun t : Tree => (t.pastifyWithHorizon n).run.value) <$> f.tree.withBackend build b =
        .ok <$> past.withBackend build b ∧
      (fun t : Tree => t.computeHorizon.value) <$> f.tree.withBackend build b =
        f.tree.computeHorizon.value.withBackend build b ∧
      ∀ t, f.tree.withBackend build b₁ = .ok t →
        t.withBackend build b₂ = f.tree.withBackend build b₂ := by
  intro pastified annotated
  have hpastified : pastified <$> f.withBackend build b = (pastified f).withBackend build b :=
    map_withBackend (fun f => f.value_pastifyWithin_on b n)
      (fun f => f.firstOperation?_pastifyWithin n) f
  have hannotated : annotated <$> f.withBackend build b = (annotated f).withBackend build b :=
    map_withBackend (value_computeHorizon_on b) firstOperation?_computeHorizon f
  refine ⟨hpastified, hannotated, fun g hg => withBackend_withBackend hg, (pastified f).tree,
    f.value_pastifyWithHorizon_tree n, ?_, ?_, ?_⟩
  · exact map_withBackend_tree (fun f => f.value_pastifyWithHorizon_tree n) hpastified
  · rw [value_computeHorizon_tree, ← id_map ((annotated f).tree.withBackend build b)]
    exact map_withBackend_tree value_computeHorizon_tree hannotated
  · intro t ht
    rw [withBackend_tree] at ht
    obtain ⟨g, hg, rfl⟩ := except_map_eq_ok_iff.mp ht
    rw [withBackend_tree, withBackend_tree, withBackend_withBackend hg]

/-- Within three samples the speed falls below a limit, which the native backend tells. -/
def braking : Formula :=
  .unaryTemporal .eventually (some (.upTo 3))
    (.binary (.comparison .less .native) (.ofVariable (.named "speed")) (.ofValue 30) none)

/-- A native build has both backends, one after the other. The standard build refuses the
native one for the comparison, which is the first node evaluated, and so it does in the
pastified formula. -/
theorem withBackend_braking :
    (∃ g, braking.withBackend .native .reference = .ok g ∧
      g.withBackend .native .native = braking.withBackend .native .native ∧
      braking.withBackend .native .native = .ok (braking.on .native)) ∧
    (braking.pastifyWithHorizon 3).value.withBackend .standard .native =
      .error ⟨.native, .comparison .less⟩ := by
  have hreference : braking.withBackend .native .reference = .ok (braking.on .reference) :=
    withBackend_of_available rfl braking
  constructor
  · exact ⟨braking.on .reference, hreference,
      (withBackend_commutes .native .native .reference .native 3 braking).2.2.1 _ hreference,
      withBackend_of_available rfl braking⟩
  · exact (withBackend_commutes .standard .native .native .native 3 braking).1.symm

end Formula

end SignalLogic
