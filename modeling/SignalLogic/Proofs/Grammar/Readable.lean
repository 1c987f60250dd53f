import SignalLogic.Proofs.Equality
import SignalLogic.Proofs.Grammar.Literals
import SignalLogic.Proofs.PreOrder

/-!
# What texts can tell

A variable can be told by a text of the grammar when it is an input whose name and field
are made of segments. A formula can be told when all its variables can, its constants are
finite and every evaluator uses the reference backend.
-/

namespace SignalLogic

open Grammar

/-- An input that is named by one segment, or by segments with points between them and
one more segment as its field. -/
def Variable.Readable (v : Variable) : Prop :=
  v.role = .input ∧
    match v.field with
    | none => IsSegment v.name
    | some field =>
        IsSegment field ∧
          ∃ ws : List String, ws ≠ [] ∧ (∀ w ∈ ws, IsSegment w) ∧ v.name = ".".intercalate ws

namespace Formula

/-- All nodes of a formula have a property. -/
def All (p : Formula → Prop) (f : Formula) : Prop :=
  ∀ g ∈ f.nodes, p g

/-- A node that derivations make: it uses the reference backend, and its variable can be
told. -/
structure PlainNode (f : Formula) : Prop where
  reference : ∀ e, f.evaluator? = some e → e.backend = .reference
  named : ∀ v, f.operator = .variable v → v.Readable

/-- A node whose text tells all of it but the horizon. -/
structure ReadableNode (f : Formula) : Prop extends PlainNode f where
  finite : ∀ x, f.operator = .constant x → Binary64.isFinite x = true

/-- A formula with such nodes only. -/
def Readable (f : Formula) : Prop :=
  f.All ReadableNode

variable {p : Formula → Prop} {f g : Formula} {horizon : Option Offset}

/-- The evaluator of a node, if it has one, tells its backend. -/
theorem forall_evaluator?_iff :
    (∀ e, f.evaluator? = some e → e.backend = .reference) ↔ f.backend? ≠ some .native := by
  constructor
  · intro h hnative
    have hoperation : f.operator.operation?.isSome = true := by
      rw [← f.isSome_backend?, hnative]
      rfl
    obtain ⟨operation, hoperation⟩ := Option.isSome_iff_exists.mp hoperation
    have hevaluator : f.evaluator? = some ⟨.native, operation⟩ := by
      simp [evaluator?, hnative, hoperation]
    cases h _ hevaluator
  · intro hbackend e he
    obtain ⟨backend, operation⟩ := e
    have hnode : f.backend? = some backend := by
      unfold evaluator? at he
      cases hb : f.backend? <;> cases ho : f.operator.operation? <;> simp_all
    cases backend with
    | reference => rfl
    | native => exact absurd hnode hbackend

/-- A node is plain when it does not use the native backend and its variable can be told. -/
theorem plainNode_iff :
    f.PlainNode ↔ f.backend? ≠ some .native ∧ ∀ v, f.operator = .variable v → v.Readable := by
  rw [← forall_evaluator?_iff]
  exact ⟨fun h => ⟨h.reference, h.named⟩, fun h => ⟨h.1, h.2⟩⟩

/-- Whether a node is plain depends on its root only. -/
theorem PlainNode.of_root (h : f.PlainNode) (hbackend : g.backend? = f.backend?)
    (hoperator : g.operator = f.operator) : g.PlainNode := by
  rw [plainNode_iff, hbackend, hoperator]
  exact plainNode_iff.mp h

theorem all_leaf_iff {op : LeafOp} : (leaf op horizon).All p ↔ p (leaf op horizon) := by
  simp [All, nodes_eq_subformulas, subformulas]

theorem all_unary_iff {op : UnaryOp} :
    (unary op f horizon).All p ↔ p (unary op f horizon) ∧ f.All p := by
  simp [All, nodes_eq_subformulas, subformulas]

theorem all_binary_iff {op : BinaryOp} :
    (binary op f g horizon).All p ↔ p (binary op f g horizon) ∧ f.All p ∧ g.All p := by
  simp [All, nodes_eq_subformulas, subformulas, or_imp, forall_and]

/-- The nodes of a formula are plain when those of an equal one are. -/
theorem all_plainNode_of_beq (h : (g == f) = true) (hg : g.All PlainNode) : f.All PlainNode := by
  have halike := alike_iff_beq.mpr h
  clear h
  induction halike with
  | @leaf op op' _ _ hop =>
      have hnode := all_leaf_iff.mp hg
      refine all_leaf_iff.mpr ?_
      cases op' with
      | constant x _ =>
          obtain ⟨y, rfl⟩ := LeafOp.eq_constant_of_beq hop
          exact plainNode_iff.mpr ⟨(plainNode_iff.mp hnode).1, nofun⟩
      | «variable» v _ =>
          obtain rfl := LeafOp.eq_variable_of_beq hop
          exact hnode.of_root rfl rfl
  | unary op _ ih =>
      obtain ⟨hnode, hoperand⟩ := all_unary_iff.mp hg
      exact all_unary_iff.mpr ⟨hnode.of_root rfl rfl, ih hoperand⟩
  | binary op _ _ ihl ihr =>
      obtain ⟨hnode, hleft, hright⟩ := all_binary_iff.mp hg
      exact all_binary_iff.mpr ⟨hnode.of_root rfl rfl, ihl hleft, ihr hright⟩

end Formula

namespace Grammar

variable {s r : List Char}

/-- A path has only segments, and no word goes on after it. -/
theorem Path.segments {l : List String} (h : Path l s r) :
    l ≠ [] ∧ (∀ w ∈ l, IsSegment w) ∧ WordEnd r := by
  induction h with
  | last hw hr => exact ⟨List.cons_ne_nil _ _, by simpa using hw, hr⟩
  | dot hw _ ih => exact ⟨List.cons_ne_nil _ _, List.forall_mem_cons.mpr ⟨hw, ih.2.1⟩, ih.2.2⟩

/-- The text of a path is its segments with points between them. -/
theorem Path.eq_intercalate {l : List String} (h : Path l s r) :
    s = (".".intercalate l).toList ++ r := by
  induction h with
  | last _ _ => rw [String.intercalate_singleton]
  | dot _ h ih =>
      rw [String.intercalate_cons_of_ne_nil h.segments.1, ih]
      simp

theorem path_of_segments {l : List String} (hl : l ≠ []) (hseg : ∀ w ∈ l, IsSegment w)
    (hr : WordEnd r) : Path l ((".".intercalate l).toList ++ r) r := by
  induction l with
  | nil => exact absurd rfl hl
  | cons w l ih =>
      obtain ⟨hw, hseg⟩ := List.forall_mem_cons.mp hseg
      cases l with
      | nil =>
          rw [String.intercalate_singleton]
          exact .last hw hr
      | cons w' l =>
          have hpath := ih (List.cons_ne_nil _ _) hseg
          rw [String.intercalate_cons_of_ne_nil (List.cons_ne_nil w' l)]
          simpa using Path.dot hw hpath

/-- A point and a field after the segments of a name. -/
theorem toList_intercalate_append {ws : List String} (field : String) (h : ws ≠ []) :
    (".".intercalate (ws ++ [field])).toList =
      (".".intercalate ws).toList ++ '.' :: field.toList := by
  rw [String.intercalate_append_of_ne_nil h (List.cons_ne_nil _ _), String.intercalate_singleton]
  simp

/-- The empty text is no segment. -/
theorem IsSegment.ne_empty {w : String} (h : IsSegment w) : w ≠ "" := by
  obtain ⟨c, t, hw, -⟩ := h.head
  rintro rfl
  cases hw

theorem chars_withField {name field : String} (h : field ≠ "") :
    ((Variable.named name).withField field).chars = name.toList ++ '.' :: field.toList := by
  simp [Variable.withField, h, Variable.chars, Variable.named]

/-- The variables of the grammar are exactly the readable ones, and their texts are told
in one way only. -/
theorem reference_iff {v : Variable} :
    Reference v s r ↔ v.Readable ∧ s = v.chars ++ r ∧ WordEnd r := by
  constructor
  · rintro ⟨l, hpath, hnames⟩
    obtain ⟨hne, hseg, hr⟩ := hpath.segments
    have hs := hpath.eq_intercalate
    cases hnames with
    | plain =>
        rw [String.intercalate_singleton] at hs
        exact ⟨⟨rfl, hseg _ (List.mem_singleton_self _)⟩, hs, hr⟩
    | @field ws field hws =>
        have hfield : IsSegment field := hseg field (by simp)
        rw [toList_intercalate_append field hws] at hs
        refine ⟨?_, by rw [hs, chars_withField hfield.ne_empty], hr⟩
        unfold Variable.withField
        rw [dif_neg hfield.ne_empty]
        exact ⟨rfl, hfield, ws, hws, fun w hw => hseg w (by simp [hw]), rfl⟩
  · rintro ⟨⟨hrole, hname⟩, rfl, hr⟩
    obtain ⟨name, field, role, hfield⟩ := v
    obtain rfl : role = .input := hrole
    cases field with
    | none =>
        refine ⟨[name], ?_, .plain⟩
        have hpath := path_of_segments (List.cons_ne_nil name []) (by simpa using hname) hr
        rwa [String.intercalate_singleton] at hpath
    | some field =>
        obtain ⟨hseg, ws, hws, hall, rfl⟩ := hname
        refine ⟨ws ++ [field], ?_, ?_⟩
        · have hpath := path_of_segments (by simp) (l := ws ++ [field]) (r := r) ?_ hr
          · rw [toList_intercalate_append field hws] at hpath
            exact hpath
          · intro w hw
            rcases List.mem_append.mp hw with hw | hw
            · exact hall w hw
            · exact List.mem_singleton.mp hw ▸ hseg
        · have hvariable : (Variable.named (".".intercalate ws)).withField field =
              ⟨".".intercalate ws, some field, .input, hfield⟩ := by
            unfold Variable.withField
            rw [dif_neg hseg.ne_empty]
            rfl
          exact hvariable ▸ .field hws

end Grammar

end SignalLogic
