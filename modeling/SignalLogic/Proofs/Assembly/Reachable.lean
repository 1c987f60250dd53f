import SignalLogic.Proofs.Assembly.Simulation
import SignalLogic.Proofs.Assembly.Soundness
import SignalLogic.Proofs.Reparsing

/-!
# Reachable trees

The trees that the operations of a build can make, in any number and order. Every operation
takes layouts of supported formulas to such layouts, and every such layout can be made. So the
reachable trees are exactly those whose nodes are all sound: no operation leaves a node whose
evaluator has fallen out of step with its operator, and none is missing a sound tree.
-/

namespace SignalLogic

/-- The trees that the operations of a build make. -/
inductive Reachable (build : Build) : Tree → Prop
  | ofValue (x : Value) : Reachable build (.ofValue x)
  | ofVariable (v : Variable) : Reachable build (.ofVariable v)
  | abs {t : Tree} (ht : Reachable build t) : Reachable build t.abs
  | not {t : Tree} (ht : Reachable build t) : Reachable build t.not
  | edge (op : Edge) {t : Tree} (ht : Reachable build t) : Reachable build (.edge op t)
  | unaryTemporal (op : UnaryTemporal) {window : Option Bounds} {t : Tree}
      (hw : ∀ b, window = some b → b.Formed) (ht : Reachable build t) :
      Reachable build (.unaryTemporal op window t)
  | arithmetic (op : Arithmetic) {l r : Tree} (hl : Reachable build l) (hr : Reachable build r) :
      Reachable build (.arithmetic op l r)
  | comparison (op : Comparison) {l r : Tree} (hl : Reachable build l) (hr : Reachable build r) :
      Reachable build (.comparison op l r)
  | logic (op : Logic) {l r : Tree} (hl : Reachable build l) (hr : Reachable build r) :
      Reachable build (.logic op l r)
  | binaryTemporal (op : BinaryTemporal) {window : Option Bounds} {l r : Tree}
      (hw : ∀ b, window = some b → b.Formed) (hl : Reachable build l) (hr : Reachable build r) :
      Reachable build (.binaryTemporal op window l r)
  | ofParts {operator : Operator} {operands : List Tree} {window : Option Bounds} {t : Tree}
      (hw : ∀ b, window = some b → b.Formed) (hs : ∀ s ∈ operands, Reachable build s)
      (ht : Tree.ofParts operator operands window = .ok t) : Reachable build t
  | parse {text : String} {f : Formula} (hf : parse text = .ok f) : Reachable build f.tree
  | parseWithBackend {backend : Backend} {text : String} {f : Formula}
      (hf : parseWithBackend build backend text = .ok f) : Reachable build f.tree
  | usingBackend {backend : Backend} {s t : Tree} (hs : Reachable build s)
      (ht : s.usingBackend build backend = .ok t) : Reachable build t
  | withBackend {backend : Backend} {s t : Tree} (hs : Reachable build s)
      (ht : s.withBackend build backend = .ok t) : Reachable build t
  | setHorizon (horizon : Offset) {t : Tree} (ht : Reachable build t) :
      Reachable build (t.withHorizon (some horizon))
  | clearHorizon {t : Tree} (ht : Reachable build t) : Reachable build (t.withHorizon none)
  | computeHorizon {t : Tree} (ht : Reachable build t) : Reachable build t.computeHorizon.value
  | pastify {s t : Tree} (hs : Reachable build s) (ht : s.pastify.run.value = .ok t) :
      Reachable build t
  | pastifyWithHorizon (horizon : Offset) {s t : Tree} (hs : Reachable build s)
      (ht : (s.pastifyWithHorizon horizon).run.value = .ok t) : Reachable build t
  /-- A node of a tree can be looked at and copied. -/
  | copy {s t : Tree} (hs : Reachable build s) (ht : t ∈ s.nodes) : Reachable build t

variable {build : Build} {backend : Backend} {t : Tree} {f g : Formula}

theorem exists_interval_of_formed {window : Option Bounds}
    (hw : ∀ b, window = some b → b.Formed) :
    ∃ i : Option Interval, i.map Interval.bounds = window := by
  cases window with
  | none => exact ⟨none, rfl⟩
  | some b =>
      obtain ⟨i, rfl⟩ := Bounds.formed_iff.mp (hw b rfl)
      exact ⟨some i, rfl⟩

namespace Formula

-- Nodes are laid out as they are made. The parser makes its formulas of these nodes, and so
-- the layout of a parsed formula is made of the same ones.

theorem ofValue_tree (x : Value) : Tree.ofValue x = (ofValue x).tree := rfl

theorem ofVariable_tree (v : Variable) : Tree.ofVariable v = (ofVariable v).tree := rfl

theorem abs_tree (f : Formula) : f.tree.abs = f.abs.tree := rfl

theorem not_tree (f : Formula) : f.tree.not = f.not.tree := rfl

theorem edge_tree (op : Edge) (f : Formula) : Tree.edge op f.tree = (edge op f).tree := rfl

theorem unaryTemporal_tree (op : UnaryTemporal) (window : Option Interval) (f : Formula) :
    Tree.unaryTemporal op (window.map Interval.bounds) f.tree =
      (unaryTemporal op window f).tree := rfl

theorem arithmetic_tree (op : Arithmetic) (f g : Formula) :
    Tree.arithmetic op f.tree g.tree = (arithmetic op f g).tree := rfl

theorem comparison_tree (op : Comparison) (f g : Formula) :
    Tree.comparison op f.tree g.tree = (comparison op f g).tree := rfl

theorem logic_tree (op : Logic) (f g : Formula) :
    Tree.logic op f.tree g.tree = (logic op f g).tree := rfl

theorem binaryTemporal_tree (op : BinaryTemporal) (window : Option Interval) (f g : Formula) :
    Tree.binaryTemporal op (window.map Interval.bounds) f.tree g.tree =
      (binaryTemporal op window f g).tree := rfl

/-- A pass that keeps the evaluated nodes keeps their support. -/
theorem SupportedBy.congr (hf : f.SupportedBy build) (h : g.evaluated = f.evaluated) :
    g.SupportedBy build := by
  rwa [SupportedBy, h]

theorem SupportedBy.computeHorizon (hf : f.SupportedBy build) :
    f.computeHorizon.value.SupportedBy build := by
  rw [value_computeHorizon, value_annotate]
  exact hf.congr (evaluated_mapHorizon demand f)

end Formula

/-- The tree is the layout of a formula that the build supports. -/
def Tree.LaidOut (build : Build) (t : Tree) : Prop :=
  ∃ f : Formula, f.SupportedBy build ∧ f.tree = t

namespace Tree.LaidOut

open Formula

variable {l r s : Tree} {window : Option Bounds}

theorem ofValue (x : Value) : (Tree.ofValue x).LaidOut build :=
  ⟨.ofValue x, supportedBy_leaf nofun, (ofValue_tree x).symm⟩

theorem ofVariable (v : Variable) : (Tree.ofVariable v).LaidOut build :=
  ⟨.ofVariable v, supportedBy_leaf nofun, (ofVariable_tree v).symm⟩

theorem abs (ht : t.LaidOut build) : t.abs.LaidOut build := by
  obtain ⟨f, hf, rfl⟩ := ht
  exact ⟨f.abs, supportedBy_unary nofun hf, (abs_tree f).symm⟩

theorem not (ht : t.LaidOut build) : t.not.LaidOut build := by
  obtain ⟨f, hf, rfl⟩ := ht
  exact ⟨f.not, supportedBy_unary nofun hf, (not_tree f).symm⟩

theorem edge (op : Edge) (ht : t.LaidOut build) : (Tree.edge op t).LaidOut build := by
  obtain ⟨f, hf, rfl⟩ := ht
  exact ⟨.edge op f, supportedBy_unary nofun hf, (edge_tree op f).symm⟩

theorem unaryTemporal (op : UnaryTemporal) (hw : ∀ b, window = some b → b.Formed)
    (ht : t.LaidOut build) : (Tree.unaryTemporal op window t).LaidOut build := by
  obtain ⟨f, hf, rfl⟩ := ht
  obtain ⟨i, rfl⟩ := exists_interval_of_formed hw
  exact ⟨.unaryTemporal op i f, supportedBy_unary nofun hf, (unaryTemporal_tree op i f).symm⟩

theorem arithmetic (op : Arithmetic) (hl : l.LaidOut build) (hr : r.LaidOut build) :
    (Tree.arithmetic op l r).LaidOut build := by
  obtain ⟨f, hf, rfl⟩ := hl
  obtain ⟨g, hg, rfl⟩ := hr
  exact ⟨.arithmetic op f g, supportedBy_binary nofun hf hg, (arithmetic_tree op f g).symm⟩

theorem comparison (op : Comparison) (hl : l.LaidOut build) (hr : r.LaidOut build) :
    (Tree.comparison op l r).LaidOut build := by
  obtain ⟨f, hf, rfl⟩ := hl
  obtain ⟨g, hg, rfl⟩ := hr
  exact ⟨.comparison op f g, supportedBy_binary nofun hf hg, (comparison_tree op f g).symm⟩

theorem logic (op : Logic) (hl : l.LaidOut build) (hr : r.LaidOut build) :
    (Tree.logic op l r).LaidOut build := by
  obtain ⟨f, hf, rfl⟩ := hl
  obtain ⟨g, hg, rfl⟩ := hr
  exact ⟨.logic op f g, supportedBy_binary nofun hf hg, (logic_tree op f g).symm⟩

theorem binaryTemporal (op : BinaryTemporal) (hw : ∀ b, window = some b → b.Formed)
    (hl : l.LaidOut build) (hr : r.LaidOut build) :
    (Tree.binaryTemporal op window l r).LaidOut build := by
  obtain ⟨f, hf, rfl⟩ := hl
  obtain ⟨g, hg, rfl⟩ := hr
  obtain ⟨i, rfl⟩ := exists_interval_of_formed hw
  exact ⟨.binaryTemporal op i f g, supportedBy_binary nofun hf hg,
    (binaryTemporal_tree op i f g).symm⟩

theorem exists_operands {operands : List Tree} (h : ∀ s ∈ operands, s.LaidOut build) :
    ∃ fs : List Formula, (∀ f ∈ fs, f.SupportedBy build) ∧ fs.map tree = operands := by
  induction operands with
  | nil => exact ⟨[], nofun, rfl⟩
  | cons s operands ih =>
      obtain ⟨f, hf, rfl⟩ := h s List.mem_cons_self
      obtain ⟨fs, hfs, rfl⟩ := ih fun s hs => h s (List.mem_cons_of_mem _ hs)
      exact ⟨f :: fs, List.forall_mem_cons.mpr ⟨hf, hfs⟩, rfl⟩

theorem ofParts {operator : Operator} {operands : List Tree}
    (hw : ∀ b, window = some b → b.Formed) (hs : ∀ s ∈ operands, s.LaidOut build)
    (ht : Tree.ofParts operator operands window = .ok t) : t.LaidOut build := by
  obtain ⟨fs, hfs, rfl⟩ := exists_operands hs
  obtain ⟨i, rfl⟩ := exists_interval_of_formed hw
  rw [ofParts_tree] at ht
  obtain ⟨f, hf, rfl⟩ := except_map_eq_ok_iff.mp ht
  exact ⟨f, supportedBy_of_ofParts hf hfs, rfl⟩

theorem parse {text : String} (hf : SignalLogic.parse text = .ok f) : f.tree.LaidOut build :=
  ⟨f, supportedBy_of_plain (plain_of_parse hf), rfl⟩

theorem usingBackend (hs : s.LaidOut build) (ht : s.usingBackend build backend = .ok t) :
    t.LaidOut build := by
  obtain ⟨f, hf, rfl⟩ := hs
  rw [usingBackend_tree] at ht
  obtain ⟨g, hg, rfl⟩ := except_map_eq_ok_iff.mp ht
  exact ⟨g, hf.usingBackend hg, rfl⟩

/-- Every evaluator is replaced, so nothing is needed of the former ones. -/
theorem withBackend (hs : s.LaidOut build) (ht : s.withBackend build backend = .ok t) :
    t.LaidOut build := by
  obtain ⟨f, -, rfl⟩ := hs
  rw [withBackend_tree] at ht
  obtain ⟨g, hg, rfl⟩ := except_map_eq_ok_iff.mp ht
  exact ⟨g, supportedBy_of_withBackend hg, rfl⟩

theorem parseWithBackend {text : String}
    (hf : SignalLogic.parseWithBackend build backend text = .ok f) : f.tree.LaidOut build := by
  obtain ⟨g, -, hf⟩ := except_bind_eq_ok_iff.mp hf
  cases hg : g.withBackend build backend with
  | error e => simp [hg, Except.mapError] at hf
  | ok f' =>
      obtain rfl : f' = f := by simpa [hg, Except.mapError] using hf
      exact ⟨f', supportedBy_of_withBackend hg, rfl⟩

theorem withHorizon (horizon : Option Offset) (ht : t.LaidOut build) :
    (t.withHorizon horizon).LaidOut build := by
  obtain ⟨f, hf, rfl⟩ := ht
  exact ⟨f.withHorizon horizon, hf.congr (evaluated_withHorizon f _),
    (withHorizon_tree f _).symm⟩

theorem computeHorizon (ht : t.LaidOut build) : t.computeHorizon.value.LaidOut build := by
  obtain ⟨f, hf, rfl⟩ := ht
  exact ⟨f.computeHorizon.value, hf.computeHorizon, (value_computeHorizon_tree f).symm⟩

theorem pastifyWithHorizon {horizon : Offset} (hs : s.LaidOut build)
    (ht : (s.pastifyWithHorizon horizon).run.value = .ok t) : t.LaidOut build := by
  obtain ⟨f, hf, rfl⟩ := hs
  obtain rfl := Except.ok.inj ((value_pastifyWithHorizon_tree f horizon).symm.trans ht)
  exact ⟨_, hf.congr (evaluated_pastifyWithin f horizon), rfl⟩

theorem pastify (hs : s.LaidOut build) (ht : s.pastify.run.value = .ok t) : t.LaidOut build := by
  unfold Tree.pastify at ht
  split at ht
  · exact hs.pastifyWithHorizon ht
  · cases ht

theorem of_mem_nodes (hs : s.LaidOut build) (ht : t ∈ s.nodes) : t.LaidOut build := by
  obtain ⟨f, hf, rfl⟩ := hs
  rw [nodes_tree] at ht
  obtain ⟨g, hg, rfl⟩ := List.mem_map.mp ht
  exact ⟨g, hf.of_mem_subformulas hg, rfl⟩

end Tree.LaidOut

/-- Every reachable tree is the layout of a supported formula. -/
theorem Reachable.laidOut (ht : Reachable build t) : t.LaidOut build := by
  induction ht with
  | ofValue x => exact .ofValue x
  | ofVariable v => exact .ofVariable v
  | abs _ ih => exact ih.abs
  | not _ ih => exact ih.not
  | edge op _ ih => exact ih.edge op
  | unaryTemporal op hw _ ih => exact ih.unaryTemporal op hw
  | arithmetic op _ _ ihl ihr => exact ihl.arithmetic op ihr
  | comparison op _ _ ihl ihr => exact ihl.comparison op ihr
  | logic op _ _ ihl ihr => exact ihl.logic op ihr
  | binaryTemporal op hw _ _ ihl ihr => exact ihl.binaryTemporal op hw ihr
  | ofParts hw _ ht ih => exact .ofParts hw ih ht
  | parse hf => exact .parse hf
  | parseWithBackend hf => exact .parseWithBackend hf
  | usingBackend _ ht ih => exact ih.usingBackend ht
  | withBackend _ ht ih => exact ih.withBackend ht
  | setHorizon horizon _ ih => exact ih.withHorizon (some horizon)
  | clearHorizon _ ih => exact ih.withHorizon none
  | computeHorizon _ ih => exact ih.computeHorizon
  | pastify _ ht ih => exact ih.pastify ht
  | pastifyWithHorizon _ _ ht ih => exact ih.pastifyWithHorizon ht
  | copy _ ht ih => exact ih.of_mem_nodes ht

theorem Reachable.withHorizon (ht : Reachable build t) (horizon : Option Offset) :
    Reachable build (t.withHorizon horizon) := by
  cases horizon with
  | none => exact ht.clearHorizon
  | some horizon => exact ht.setHorizon horizon

theorem formed_of_map_bounds (i : Option Interval) :
    ∀ b, i.map Interval.bounds = some b → b.Formed := by
  intro b hb
  obtain ⟨i, -, rfl⟩ := Option.map_eq_some_iff.mp hb
  exact Bounds.formed_iff.mpr ⟨i, rfl⟩

/-- A fresh node can be given any backend of the build and any horizon. -/
theorem Reachable.adjust (backend : Backend) (g : Formula) (hf : Reachable build f.tree)
    (hg : f.usingBackend build backend = .ok g) (horizon : Option Offset) :
    Reachable build (g.withHorizon horizon).tree := by
  have hselect : f.tree.usingBackend build backend = .ok g.tree := by
    rw [Formula.usingBackend_tree, hg]
    rfl
  rw [← Formula.withHorizon_tree]
  exact (hf.usingBackend hselect).withHorizon horizon

theorem reachable_leaf (op : LeafOp) (horizon : Option Offset)
    (h : (Formula.leaf op horizon).RootSupportedBy build) :
    Reachable build (Formula.leaf op horizon).tree := by
  cases op with
  | constant x b =>
      have hselect : Evaluator.select build b (.constant x) = .ok ⟨b, .constant x⟩ :=
        Evaluator.select_eq_ok_iff.mpr ⟨h _ rfl, rfl⟩
      refine Reachable.adjust b (.leaf (.constant x b) none) (f := .ofValue x)
        (.ofValue x) ?_ horizon
      rw [Formula.ofValue, Formula.usingBackend, LeafOp.select, hselect]
      rfl
  | «variable» v b =>
      have hselect : Evaluator.select build b .variable = .ok ⟨b, .variable⟩ :=
        Evaluator.select_eq_ok_iff.mpr ⟨h _ rfl, rfl⟩
      refine Reachable.adjust b (.leaf (.variable v b) none) (f := .ofVariable v)
        (.ofVariable v) ?_ horizon
      rw [Formula.ofVariable, Formula.usingBackend, LeafOp.select, hselect]
      rfl

theorem reachable_unary (op : UnaryOp) (hf : Reachable build f.tree) (horizon : Option Offset)
    (h : (Formula.unary op f horizon).RootSupportedBy build) :
    Reachable build (Formula.unary op f horizon).tree := by
  cases op with
  | abs b =>
      have hselect : Evaluator.select build b .abs = .ok ⟨b, .abs⟩ :=
        Evaluator.select_eq_ok_iff.mpr ⟨h _ rfl, rfl⟩
      refine Reachable.adjust b (.unary (.abs b) f none) (f := f.abs) hf.abs ?_ horizon
      rw [Formula.abs, Formula.usingBackend, UnaryOp.select, hselect]
      rfl
  | not => exact hf.not.withHorizon horizon
  | edge op => exact (hf.edge op).withHorizon horizon
  | temporal op window =>
      exact (hf.unaryTemporal op (formed_of_map_bounds window)).withHorizon horizon

theorem reachable_binary (op : BinaryOp) (hf : Reachable build f.tree)
    (hg : Reachable build g.tree) (horizon : Option Offset)
    (h : (Formula.binary op f g horizon).RootSupportedBy build) :
    Reachable build (Formula.binary op f g horizon).tree := by
  cases op with
  | arithmetic op b =>
      have hselect : Evaluator.select build b (.arithmetic op) = .ok ⟨b, .arithmetic op⟩ :=
        Evaluator.select_eq_ok_iff.mpr ⟨h _ rfl, rfl⟩
      refine Reachable.adjust b (.binary (.arithmetic op b) f g none) (f := .arithmetic op f g)
        (hf.arithmetic op hg) ?_ horizon
      rw [Formula.arithmetic, Formula.usingBackend, BinaryOp.select, hselect]
      rfl
  | comparison op b =>
      have hselect : Evaluator.select build b (.comparison op) = .ok ⟨b, .comparison op⟩ :=
        Evaluator.select_eq_ok_iff.mpr ⟨h _ rfl, rfl⟩
      refine Reachable.adjust b (.binary (.comparison op b) f g none) (f := .comparison op f g)
        (hf.comparison op hg) ?_ horizon
      rw [Formula.comparison, Formula.usingBackend, BinaryOp.select, hselect]
      rfl
  | logic op => exact (hf.logic op hg).withHorizon horizon
  | temporal op window =>
      exact (hf.binaryTemporal op (formed_of_map_bounds window) hg).withHorizon horizon

/-- The layout of every supported formula is made by its constructors. -/
theorem reachable_tree (hf : f.SupportedBy build) : Reachable build f.tree := by
  induction f with
  | leaf op horizon => exact reachable_leaf op horizon (Formula.supportedBy_leaf_iff.mp hf)
  | unary op operand horizon ih =>
      obtain ⟨hroot, hoperand⟩ := Formula.supportedBy_unary_iff.mp hf
      exact reachable_unary op (ih hoperand) horizon hroot
  | binary op left right horizon ihl ihr =>
      obtain ⟨hroot, hleft, hright⟩ := Formula.supportedBy_binary_iff.mp hf
      exact reachable_binary op (ihl hleft) (ihr hright) horizon hroot

/-- The reachable trees are the layouts of the supported formulas. -/
theorem reachable_iff_laidOut : Reachable build t ↔ t.LaidOut build := by
  constructor
  · exact Reachable.laidOut
  · rintro ⟨f, hf, rfl⟩
    exact reachable_tree hf

/-- The operations of a build make exactly the trees whose nodes are all sound. -/
theorem reachable_iff_sound : Reachable build t ↔ ∀ s ∈ t.nodes, s.Sound build :=
  reachable_iff_laidOut.trans Formula.exists_tree_iff_sound

end SignalLogic
