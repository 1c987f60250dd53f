import SignalLogic.Proofs.Assembly.Representation
import SignalLogic.Proofs.LookAhead

/-!
# Passes over layouts

On the layout of a formula the passes do what they do on the formula: they yield the layout
of the same result and report the same. Pastification of a layout therefore never fails, since
pastification of a formula cannot.
-/

namespace SignalLogic

/-- What two passes in sequence report does not depend on how they are grouped. -/
instance : LawfulMonad Logged :=
  LawfulMonad.mk' Logged
    (fun m => by
      show (⟨m.value, m.records ++ []⟩ : Logged _) = m
      rw [List.append_nil])
    (fun a f => rfl)
    (fun m f g => by
      show (⟨_, m.records ++ _ ++ _⟩ : Logged _) = ⟨_, m.records ++ (_ ++ _)⟩
      rw [List.append_assoc]
      rfl)

namespace Formula

theorem horizonOver_parts_unary (op : UnaryOp) (operand : Formula) (h : Option Offset)
    (operands : Option Offset) :
    (unary op operand h).parts.horizonOver operands = op.horizon operands := by
  cases op with
  | temporal op window => cases op <;> cases window <;> rfl
  | _ => rfl

theorem horizonOver_parts_binary (op : BinaryOp) (left right : Formula) (h : Option Offset)
    (operands : Option Offset) :
    (binary op left right h).parts.horizonOver operands = op.horizon operands := by
  cases op with
  | temporal op window => cases op <;> cases window <;> rfl
  | _ => rfl

theorem settle_tree (f : Formula) (horizon : Option Offset) :
    f.tree.settle horizon = tree <$> f.settle horizon := by
  simp only [Tree.settle, settle, name_tree, withHorizon_tree]
  split <;> simp only [map_bind, map_pure]

/-- The horizon pass over a layout is the one over the formula. -/
theorem annotate_tree (f : Formula) : f.tree.annotate = tree <$> f.annotate := by
  induction f with
  | leaf op h => exact settle_tree (leaf op h) (some 0)
  | unary op operand h ih =>
      simp only [tree, Tree.annotate, annotate, ih, bind_map_left, map_bind, root_tree,
        horizonOver_parts_unary]
      refine bind_congr fun operand' => ?_
      exact settle_tree (unary op operand' h) (op.horizon operand'.horizon)
  | binary op left right h ihl ihr =>
      simp only [tree, Tree.annotate, annotate, ihl, ihr, bind_map_left, map_bind, root_tree,
        horizonOver_parts_binary]
      refine bind_congr fun left' => bind_congr fun right' => ?_
      exact settle_tree (binary op left' right' h)
        (op.horizon (Horizon.join left'.horizon right'.horizon))

theorem computeHorizon_tree (f : Formula) :
    f.tree.computeHorizon = tree <$> f.computeHorizon := by
  simp only [Tree.computeHorizon, computeHorizon, annotate_tree, bind_map_left, map_bind,
    root_tree, name_tree]
  refine bind_congr fun g => ?_
  cases h : g.horizon <;> simp [parts, h]

/-- The layout of a formula with horizons stores the same horizons. -/
theorem value_computeHorizon_tree (f : Formula) :
    f.tree.computeHorizon.value = f.computeHorizon.value.tree := by
  rw [computeHorizon_tree, Logged.value_map]

/-- A node takes over the evaluator of any node of the same operator. -/
theorem inherit_parts {f g : Formula} (h : g.operator = f.operator) :
    g.parts.inherit f.parts = { g.parts with evaluator := f.evaluator? } := by
  have hf := f.isSome_backend?
  have hg := g.isSome_backend?
  rw [h] at hg
  simp only [parts, evaluator?, h]
  cases ho : f.operator.operation? with
  | none => cases f.backend? <;> cases g.backend? <;> rfl
  | some operation =>
      rw [ho] at hf hg
      obtain ⟨b, hf⟩ := Option.isSome_iff_exists.mp hf
      obtain ⟨b', hg⟩ := Option.isSome_iff_exists.mp hg
      rw [hf, hg]
      exact if_pos (Operation.beq_refl operation)

/-- A node is assembled again with the evaluator that it had. -/
theorem rebuild_parts {f : Formula} (operands : List Formula) (g : Formula)
    (hg : ofParts f.operator operands f.window? = .ok g) (ho : g.operator = f.operator) :
    Tree.rebuild f.parts (operands.map tree) =
      pure (g.tree.withRoot { g.parts with evaluator := f.evaluator? }) := by
  have hparts : Tree.ofParts f.parts.operator (operands.map tree) f.parts.window = .ok g.tree := by
    rw [parts, ofParts_tree, hg]
    rfl
  rw [Tree.rebuild, hparts]
  simp only [root_tree, inherit_parts ho]

theorem rebuild_parts_leaf (op : LeafOp) (h : Option Offset) :
    Tree.rebuild (leaf op h).parts [] = pure (leaf op none).tree := by
  cases op with
  | constant x b => exact rebuild_parts [] (ofValue x) rfl rfl
  | «variable» v b => exact rebuild_parts [] (ofVariable v) rfl rfl

theorem rebuild_parts_unary (op : UnaryOp) (operand operand' : Formula) (h : Option Offset) :
    Tree.rebuild (unary op operand h).parts [operand'.tree] =
      pure (unary op operand' none).tree := by
  cases op with
  | abs b => exact rebuild_parts [operand'] operand'.abs rfl rfl
  | not => exact rebuild_parts [operand'] operand'.not rfl rfl
  | edge op => exact rebuild_parts [operand'] (edge op operand') rfl rfl
  | temporal op window =>
      refine rebuild_parts [operand'] (unaryTemporal op window operand') ?_ rfl
      cases window <;> rfl

theorem rebuild_parts_binary (op : BinaryOp) (left left' right right' : Formula)
    (h : Option Offset) :
    Tree.rebuild (binary op left right h).parts [left'.tree, right'.tree] =
      pure (binary op left' right' none).tree := by
  cases op with
  | arithmetic op b =>
      exact rebuild_parts [left', right'] (arithmetic op left' right') rfl rfl
  | comparison op b =>
      exact rebuild_parts [left', right'] (comparison op left' right') rfl rfl
  | logic op =>
      exact rebuild_parts [left', right'] (logic op left' right') rfl rfl
  | temporal op window =>
      refine rebuild_parts [left', right'] (binaryTemporal op window left' right') ?_ rfl
      cases window <;> rfl

theorem unaryAhead?_parts_of_none {op : UnaryOp} (ha : op.lookAhead? = none)
    (operand : Formula) (h : Option Offset) :
    (unary op operand h).parts.unaryAhead? = none := by
  cases op with
  | temporal op window =>
      cases op <;> rcases window with _ | ⟨_, _ | _, _⟩ <;> first | rfl | cases ha
  | _ => rfl

theorem unaryAhead?_parts_of_some {op : UnaryOp} {ahead : UnaryLookAhead}
    (ha : op.lookAhead? = some ahead) (operand : Formula) (h : Option Offset) :
    ∃ f i, (unary op operand h).parts.unaryAhead? = some (f, Interval.bounds i, ahead.reach) ∧
      f.past? = some ahead.past ∧ i.upper = .finite ahead.reach ∧
      ahead.width = ahead.reach - i.lower := by
  obtain ⟨f, i, rfl, hpast, hupper, hwidth⟩ := UnaryOp.lookAhead?_eq_some ha
  have hfuture : f.isFuture = true := by rw [← f.isSome_past?, hpast]; rfl
  refine ⟨f, i, ?_, hpast, hupper, hwidth⟩
  show (if f.isFuture then i.upper.offset?.map (f, i.bounds, ·) else none) = _
  rw [if_pos hfuture, hupper]
  rfl

theorem binaryAhead?_parts (op : BinaryOp) (left right : Formula) (h : Option Offset) :
    (binary op left right h).parts.binaryAhead? =
      op.lookAhead?.map fun ahead => (ahead.window.bounds, ahead.reach) := by
  cases op with
  | temporal op window => cases op <;> rcases window with _ | ⟨_, _ | _, _⟩ <;> rfl
  | _ => rfl

theorem width_of_le {lower upper : Offset} (h : lower ≤ upper) :
    Tree.width lower upper = pure (upper - lower) :=
  if_neg (UInt64.not_lt.mpr h)

theorem lookBack_tree (op : UnaryTemporal) (width : Offset) (operand : Formula)
    (name : String) :
    Tree.lookBack op width operand.tree name = liftM (tree <$> lookBack op width operand name) := by
  have hwindow : Bounds.between 0 width = .ok (Interval.upTo width).bounds :=
    if_neg (UInt64.not_lt.mpr UInt64.zero_le)
  simp only [Tree.lookBack, lookBack, hwindow]
  split
  · simp only [map_bind, map_pure, monadLift_bind, monadLift_pure]
  · simp only [map_pure, monadLift_pure]
    rfl

theorem pastifyWithin_tree_variable (v : Variable) (b : Backend) (h : Option Offset)
    (budget : Offset) :
    (leaf (.variable v b) h).tree.pastifyWithin budget =
      pure (delayed budget (leaf (.variable v b) none)).tree := by
  show (if 0 < budget then
      Tree.rebuild (leaf (.variable v b) h).parts [] >>= fun v =>
        pure (.unaryTemporal .once (some (.point budget)) v)
    else Tree.rebuild (leaf (.variable v b) h).parts []) = _
  rw [rebuild_parts_leaf, pure_bind, delayed]
  by_cases hbudget : budget = 0
  · rw [if_pos hbudget, if_neg (by simp [hbudget])]
  · rw [if_neg hbudget, if_pos (UInt64.pos_iff_ne_zero.mpr hbudget)]
    rfl

/-- Pastification of a layout succeeds with the layout of the pastified formula. -/
theorem pastifyWithin_tree (f : Formula) (budget : Offset) :
    f.tree.pastifyWithin budget = liftM (tree <$> f.pastifyWithin budget) := by
  induction f generalizing budget with
  | leaf op h =>
      cases op with
      | constant x b => exact rebuild_parts_leaf (.constant x b) h
      | «variable» v b => exact pastifyWithin_tree_variable v b h budget
  | unary op operand h ih =>
      cases ha : op.lookAhead? with
      | none =>
          have hahead := unaryAhead?_parts_of_none ha operand h
          simp only [tree, Tree.pastifyWithin, hahead, pastifyWithin, ha, ih, rebuild_parts_unary,
            monadLift_map, monadLift_bind, monadLift_pure, bind_map_left, map_bind, map_pure]
      | some ahead =>
          obtain ⟨f, i, hahead, hpast, hupper, hwidth⟩ := unaryAhead?_parts_of_some ha operand h
          -- The window comes from a formula, so its width cannot underflow.
          have hordered := width_of_le (Interval.lower_le_of_upper hupper)
          have hname := name_tree (unary op operand h)
          rw [tree] at hname
          simp only [tree, Tree.pastifyWithin, hahead, pastifyWithin, ha, ih, hname, hpast,
            Option.getD_some, Interval.bounds, hordered, ← hwidth, lookBack_tree,
            monadLift_map, monadLift_bind, bind_map_left, map_bind, pure_bind]
  | binary op left right h ihl ihr =>
      have hahead := binaryAhead?_parts op left right h
      cases ha : op.lookAhead? with
      | none =>
          rw [ha, Option.map_none] at hahead
          simp only [tree, Tree.pastifyWithin, hahead, pastifyWithin, ha, ihl, ihr,
            rebuild_parts_binary, monadLift_map, monadLift_bind, monadLift_pure, bind_map_left,
            map_bind, map_pure]
      | some ahead =>
          rw [ha, Option.map_some] at hahead
          have hname := name_tree (binary op left right h)
          rw [tree] at hname
          simp only [tree, Tree.pastifyWithin, hahead, pastifyWithin, ha, ihl, ihr, hname,
            monadLift_map, monadLift_bind, monadLift_pure, bind_map_left, map_bind, map_pure]
          rfl

theorem pastifyWithHorizon_tree (f : Formula) (horizon : Offset) :
    f.tree.pastifyWithHorizon horizon = liftM (tree <$> f.pastifyWithHorizon horizon) := by
  simp only [Tree.pastifyWithHorizon, pastifyWithHorizon, name_tree, pastifyWithin_tree,
    monadLift_map, monadLift_bind, monadLift_pure, bind_map_left, map_bind, map_pure]

/-- Pastification of a layout yields the layout of the pastified formula. -/
theorem value_pastifyWithHorizon_tree (f : Formula) (horizon : Offset) :
    (f.tree.pastifyWithHorizon horizon).run.value =
      .ok (f.pastifyWithHorizon horizon).value.tree := by
  rw [pastifyWithHorizon_tree]
  rfl

/-- Pastification under the stored horizon fails where it fails on the formula. -/
theorem pastify_tree (f : Formula) :
    f.tree.pastify = match f.pastify with
      | .ok past => liftM (tree <$> past)
      | .error cause => throw (.undefinedHorizon cause) := by
  have hroot : f.tree.root.horizon = f.horizon := by rw [root_tree, parts]
  rw [Tree.pastify, pastify, hroot]
  cases f.horizon with
  | none => rw [name_tree]
  | some horizon => exact pastifyWithHorizon_tree f horizon

end Formula

end SignalLogic
