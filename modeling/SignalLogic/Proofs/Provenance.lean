import SignalLogic.Proofs.Assembly.Simulation
import SignalLogic.Proofs.Evaluated
import SignalLogic.Proofs.OpenFuture
import Mathlib.Data.List.Forall2
import Mathlib.Data.List.ReduceOption

/-!
# Where the nodes of a pastified formula come from

Each node of a pastified formula is made of a node of the formula, or it is new. The former
keeps the operator, the window and the evaluator, the latter has no evaluator, and neither has
a horizon. All nodes but the bounded future ones are kept, in their order.
-/

namespace SignalLogic

/-- The evaluated nodes in pre-order, each with the evaluator that it holds. -/
def Tree.evaluated (t : Tree) : List (Operator × Evaluator) :=
  t.nodes.filterMap fun s => s.root.evaluator.map (s.root.operator, ·)

namespace Formula

/-- The layout of a formula holds the evaluators that the formula tells. -/
theorem evaluated_tree (f : Formula) : f.tree.evaluated = f.evaluated := by
  rw [Tree.evaluated, nodes_tree, List.filterMap_map, evaluated]
  apply List.filterMap_congr
  intro g _
  simp only [Function.comp_apply, root_tree, parts, evaluation?]

/-- The nodes that the nodes of the pastified formula are made of, in pre-order. An operator
that delays a variable, or that looks back instead of ahead, is made of none. -/
def origins (budget : Offset) : Formula → List (Option Formula)
  | leaf (.constant x b) h => [some (leaf (.constant x b) h)]
  | leaf (.variable v b) h =>
      (if budget = 0 then [] else [none]) ++ [some (leaf (.variable v b) h)]
  | unary op operand h =>
      match op.lookAhead? with
      | some ahead =>
          (if ahead.width = 0 then [] else [none]) ++ operand.origins (budget.monus ahead.reach)
      | none => some (unary op operand h) :: operand.origins budget
  | binary op left right h =>
      match op.lookAhead? with
      | some ahead =>
          none :: (left.origins (budget.monus ahead.reach) ++
            right.origins (budget.monus ahead.reach))
      | none => some (binary op left right h) :: (left.origins budget ++ right.origins budget)

/-- What a node of the pastified formula has from the node that it is made of. -/
inductive MadeOf (g : Formula) : Option Formula → Prop
  /-- The operator, the window and the evaluator are kept. -/
  | kept {source : Formula} (hoccurrence : g.occurrence = source.occurrence)
      (hevaluator : g.evaluator? = source.evaluator?) (hhorizon : g.horizon = none) :
      MadeOf g (some source)
  /-- A node that is made of none has no evaluator. -/
  | new (hevaluator : g.evaluator? = none) (hhorizon : g.horizon = none) : MadeOf g none

/-- Neither a kept node nor a new one has a horizon. -/
theorem MadeOf.horizon_eq_none {g : Formula} {origin : Option Formula} (h : MadeOf g origin) :
    g.horizon = none := by
  cases h with
  | kept _ _ hhorizon => exact hhorizon
  | new _ hhorizon => exact hhorizon

/-- A variable is kept, and the operator that delays it is new. -/
theorem forall₂_origins_variable (budget : Offset) (v : Variable) (b : Backend)
    (h : Option Offset) :
    List.Forall₂ MadeOf ((leaf (.variable v b) none).delayed budget).subformulas
      ((leaf (.variable v b) h).origins budget) := by
  rw [origins, delayed]
  split
  · exact .cons (.kept rfl rfl rfl) .nil
  · exact .cons (.new rfl rfl) (.cons (.kept rfl rfl rfl) .nil)

/-- The nodes of a pastified formula are made of their origins. -/
theorem forall₂_origins (f : Formula) (budget : Offset) :
    List.Forall₂ MadeOf (f.pastifyWithin budget).value.subformulas (f.origins budget) := by
  induction f generalizing budget with
  | leaf op h =>
      cases op with
      | constant x b => exact .cons (.kept rfl rfl rfl) .nil
      | «variable» v b => exact forall₂_origins_variable budget v b h
  | unary op operand h ih =>
      cases ha : op.lookAhead? with
      | none =>
          rw [value_pastifyWithin_unary ha]
          simp only [origins, ha]
          exact .cons (.kept rfl rfl rfl) (ih budget)
      | some ahead =>
          rw [value_pastifyWithin_ahead ha]
          simp only [origins, ha]
          -- An operator that is left out has no node, neither kept nor new.
          split
          · exact ih _
          · exact .cons (.new rfl rfl) (ih _)
  | binary op left right h ihl ihr =>
      cases ha : op.lookAhead? with
      | none =>
          rw [value_pastifyWithin_binary ha]
          simp only [origins, ha]
          exact .cons (.kept rfl rfl rfl) (List.rel_append (ihl budget) (ihr budget))
      | some ahead =>
          rw [value_pastifyWithin_until ha]
          simp only [origins, ha]
          exact .cons (.new rfl rfl) (List.rel_append (ihl _) (ihr _))

/-- All nodes but the bounded future ones are origins, in their order. -/
theorem reduceOption_origins (f : Formula) (budget : Offset) :
    (f.origins budget).reduceOption = f.subformulas.filter fun g => !g.isBoundedFuture := by
  induction f generalizing budget with
  | leaf op h =>
      cases op with
      | constant x b => rfl
      | «variable» v b =>
          rw [origins]
          split <;> rfl
  | unary op operand h ih =>
      have hroot := isBoundedFuture_unary op operand h
      cases ha : op.lookAhead? with
      | none => simp [origins, subformulas, ha, hroot, ih]
      | some ahead =>
          simp only [origins, subformulas, ha, List.filter_cons, hroot]
          split <;> simp [ih]
  | binary op left right h ihl ihr =>
      have hroot := isBoundedFuture_binary op left right h
      cases ha : op.lookAhead? <;>
        simp [origins, subformulas, ha, hroot, ihl, ihr, List.reduceOption_append]

/-- Pastification stores no horizon anywhere. -/
theorem horizons_pastifyWithin (f : Formula) (budget : Offset) :
    (f.pastifyWithin budget).value.All fun g => g.horizon = none := by
  have hmade := (f.forall₂_origins budget).imp fun _ _ h => And.intro h.horizon_eq_none h
  intro g hg
  rw [nodes_eq_subformulas] at hg
  exact ((List.forall₂_and_left _ _).mp hmade).1 g hg

/-- Pastification keeps every evaluator. Under every budget the evaluated nodes of the result
are those of the formula, with their operators and evaluators and in their order. Every node is
made of one that is not a bounded future one, all of which are used, or it is new and has no
evaluator; and no node has a horizon. The same evaluators are left when every node is taken
apart and assembled again, with an evaluator of its own that is replaced by the former one only
if both apply the same operation. -/
theorem evaluators_pastify (f : Formula) (budget : Offset) :
    let past := (f.pastifyWithHorizon budget).value
    past.nodes.filterMap evaluation? = f.nodes.filterMap evaluation? ∧
    List.Forall₂ MadeOf past.nodes (f.origins budget) ∧
    (f.origins budget).reduceOption = f.nodes.filter (fun g => !g.isBoundedFuture) ∧
    (∀ g ∈ past.nodes, g.horizon = none) ∧
    ∃ assembled, (f.tree.pastifyWithHorizon budget).run.value = .ok assembled ∧
      assembled.evaluated = f.tree.evaluated ∧
      ∀ s ∈ assembled.nodes, s.root.horizon = none := by
  intro past
  have hevaluated : past.evaluated = f.evaluated := f.evaluated_pastifyWithin budget
  have hhorizons : ∀ g ∈ past.nodes, g.horizon = none := f.horizons_pastifyWithin budget
  refine ⟨?_, ?_, ?_, hhorizons, past.tree, ?_, ?_, ?_⟩
  · rw [nodes_eq_subformulas, nodes_eq_subformulas]
    exact hevaluated
  · rw [nodes_eq_subformulas]
    exact f.forall₂_origins budget
  · rw [nodes_eq_subformulas]
    exact f.reduceOption_origins budget
  · exact f.value_pastifyWithHorizon_tree budget
  · rw [evaluated_tree, evaluated_tree, hevaluated]
  · intro s hs
    rw [nodes_tree] at hs
    obtain ⟨g, hg, rfl⟩ := List.mem_map.mp hs
    rw [← nodes_eq_subformulas] at hg
    rw [root_tree]
    exact hhorizons g hg

end Formula

end SignalLogic
