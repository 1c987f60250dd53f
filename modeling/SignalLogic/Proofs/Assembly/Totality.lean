import SignalLogic.Proofs.Assembly.Reachable

/-!
# Pastification of reachable trees

Pastification takes every node apart and assembles it again, and each of its checks has an
exit of its own: the number of operands, the window, the width of the window and the window of
that width. Trees of loose parts reach these exits. On a reachable tree none is taken, at any
node and under any budget, so an undefined horizon is all that can be wrong.
-/

namespace SignalLogic

variable {build : Build} {t : Tree}

/-- The rewriting ends with a result. -/
def Rewriting.Succeeds {α : Type} (m : Rewriting α) : Prop :=
  ∃ a, m.run.value = .ok a

/-- What cannot fail does not fail. -/
theorem Rewriting.succeeds_lift {α : Type} (m : Logged α) :
    Rewriting.Succeeds (liftM m) :=
  ⟨m.value, rfl⟩

/-- Assembly succeeds on as many operands as the operator has, and a window only where one is
accepted. -/
theorem Tree.exists_ofParts {operator : Operator} {operands : List Tree} {window : Option Bounds}
    (hcount : operands.length = operator.arity)
    (hwindow : window.isSome = true → operator.acceptsInterval = true) :
    ∃ fresh, Tree.ofParts operator operands window = .ok fresh := by
  have haccepted : ¬ (window.isSome && !operator.acceptsInterval) = true := by
    intro h
    obtain ⟨hsome, hrefused⟩ := Bool.and_eq_true_iff.mp h
    rw [hwindow hsome] at hrefused
    cases hrefused
  unfold Tree.ofParts
  rw [if_neg (not_not.mpr hcount), if_neg haccepted]
  cases operator with
  | constant | «variable» => exact ⟨_, rfl⟩
  | abs | not | edge | unaryTemporal =>
      obtain ⟨operand, rfl⟩ := List.length_eq_one_iff.mp hcount
      exact ⟨_, rfl⟩
  | arithmetic | comparison | logic | binaryTemporal =>
      obtain ⟨left, right, rfl⟩ := List.length_eq_two.mp hcount
      exact ⟨_, rfl⟩

/-- The checks of pastification on the parts of the root: as many operands as the operator has,
a window only where one is accepted, and if the window ends, a width that does not underflow
and a window of that width. -/
structure Tree.Coherent (t : Tree) : Prop where
  operands : t.children.length = t.root.operator.arity
  window : t.root.window.isSome → t.root.operator.acceptsInterval = true
  width : ∀ w upper, t.root.window = some w → w.upper = .finite upper → w.lower ≤ upper
  narrowed : ∀ w upper, t.root.window = some w → w.upper = .finite upper →
    ∃ b, Bounds.between 0 (upper - w.lower) = .ok b

theorem Tree.Sound.coherent (h : t.Sound build) : t.Coherent where
  operands := h.operands
  window := h.window
  width w upper hw hupper := by
    have hordered := h.ordered w hw
    rw [hupper] at hordered
    exact Endpoint.finite_le_finite.mp hordered
  narrowed w upper _ _ := ⟨_, if_neg (UInt64.not_lt.mpr UInt64.zero_le)⟩

/-- A node whose parts pass the checks is assembled again over as many operands as it had. -/
theorem Tree.Coherent.rebuild_succeeds (h : t.Coherent) {operands : List Tree}
    (hcount : operands.length = t.children.length) : (Tree.rebuild t.root operands).Succeeds := by
  obtain ⟨fresh, hfresh⟩ := Tree.exists_ofParts (hcount.trans h.operands) h.window
  rw [Tree.rebuild, hfresh]
  exact ⟨_, rfl⟩

namespace Reachable

theorem coherent (ht : Reachable build t) {s : Tree} (hs : s ∈ t.nodes) : s.Coherent :=
  (Formula.exists_tree_iff_sound.mp ht.laidOut s hs).coherent

theorem pastifyWithin_succeeds (ht : Reachable build t) (budget : Offset) :
    (t.pastifyWithin budget).Succeeds := by
  obtain ⟨f, -, rfl⟩ := ht.laidOut
  rw [Formula.pastifyWithin_tree]
  exact Rewriting.succeeds_lift _

theorem pastifyWithHorizon_succeeds (ht : Reachable build t) (horizon : Offset) :
    (t.pastifyWithHorizon horizon).Succeeds := by
  obtain ⟨f, -, rfl⟩ := ht.laidOut
  rw [Formula.pastifyWithHorizon_tree]
  exact Rewriting.succeeds_lift _

/-- Under the stored horizon the only obstacle is that there is none. -/
theorem pastify_succeeds_iff (ht : Reachable build t) :
    t.pastify.Succeeds ↔ t.root.horizon.isSome = true := by
  obtain ⟨f, -, rfl⟩ := ht.laidOut
  rw [Formula.pastify_tree, Formula.pastify, Formula.root_tree, Formula.parts]
  cases f.horizon with
  | none => exact iff_of_false (by rintro ⟨_, ⟨⟩⟩) Bool.false_ne_true
  | some horizon => exact iff_of_true (Rewriting.succeeds_lift _) rfl

/-- On a reachable tree the checks of pastification hold at every node. So every node can be
assembled again over whatever its operands become, and pastification succeeds from every node
on, under every budget. Under the stored horizon it succeeds exactly when there is one, and
otherwise names the root and reports nothing. -/
theorem pastification_succeeds (ht : Reachable build t) :
    (∀ s ∈ t.nodes, s.Coherent ∧
      (∀ operands, operands.length = s.children.length →
        (Tree.rebuild s.root operands).Succeeds) ∧
      ∀ budget, (s.pastifyWithin budget).Succeeds) ∧
    (∀ horizon, (t.pastifyWithHorizon horizon).Succeeds) ∧
    (t.pastify.Succeeds ↔ t.root.horizon.isSome = true) ∧
    (t.root.horizon = none → t.pastify.run = ⟨.error (.undefinedHorizon ⟨t.name⟩), []⟩) := by
  have hundefined (h : t.root.horizon = none) :
      t.pastify.run = ⟨.error (.undefinedHorizon ⟨t.name⟩), []⟩ := by
    rw [Tree.pastify, h]
    rfl
  refine ⟨fun s hs => ?_, ht.pastifyWithHorizon_succeeds, ht.pastify_succeeds_iff, hundefined⟩
  have hcoherent := ht.coherent hs
  exact ⟨hcoherent, fun _ => hcoherent.rebuild_succeeds, (ht.copy hs).pastifyWithin_succeeds⟩

/-- At each of the offsets one to three, a request is held until its grant two samples later
at most. -/
def heldRequests : Tree :=
  .unaryTemporal .always (some ⟨1, .finite 3⟩)
    (.binaryTemporal .until (some ⟨0, .finite 2⟩)
      (.ofVariable (.named "req")) (.ofVariable (.named "gnt")))

/-- Two windows are looked through, and no horizon is stored. -/
theorem pastification_succeeds_heldRequests :
    Reachable .standard heldRequests ∧
    (∀ horizon, (heldRequests.pastifyWithHorizon horizon).Succeeds) ∧
    heldRequests.pastify.run = ⟨.error (.undefinedHorizon ⟨heldRequests.name⟩), []⟩ := by
  have hformed (lower upper : Offset) (h : Bounds.between lower upper = .ok ⟨lower, .finite upper⟩) :
      ∀ b, some (⟨lower, .finite upper⟩ : Bounds) = some b → b.Formed := by
    rintro _ ⟨⟩
    exact .between h
  have hreachable : Reachable .standard heldRequests :=
    .unaryTemporal .always (hformed 1 3 rfl)
      (.binaryTemporal .until (hformed 0 2 rfl) (.ofVariable _) (.ofVariable _))
  obtain ⟨-, hsucceeds, -, hundefined⟩ := pastification_succeeds hreachable
  exact ⟨hreachable, hsucceeds, hundefined rfl⟩

end Reachable

/-- Loose parts that do not fit are refused: here an operand is missing. -/
example : ((Tree.leaf { operator := .abs }).pastifyWithin 0).run.value =
    .error (.malformed (.arity "abs" 1 0)) := rfl

/-- And here the width of a window underflows. -/
example (v : Variable) :
    ((Tree.unaryTemporal .always (some ⟨3, .finite 1⟩) (.ofVariable v)).pastifyWithin 0).run.value =
      .error (.underflow 1 3) := rfl

end SignalLogic
