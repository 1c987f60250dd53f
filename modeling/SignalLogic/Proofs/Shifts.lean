import SignalLogic.Proofs.Assembly.Simulation
import SignalLogic.Proofs.LookAhead

/-!
# Shifts

What pastification makes of a formula, said without budgets. The upper ends of the bounded
windows above a leaf are added up, as natural numbers, and a variable is delayed by what the
sum leaves of the horizon. The budget at a node is that difference: a chain of differences
that stop at zero is one difference that stops at zero.
-/

namespace SignalLogic

/-- The past operator for each of the two that look ahead at one operand. -/
inductive UnaryTemporal.Mirrored : UnaryTemporal → UnaryTemporal → Prop
  | eventually : Mirrored .eventually .once
  | always : Mirrored .always .historically

theorem UnaryTemporal.mirrored_iff {op past : UnaryTemporal} :
    Mirrored op past ↔ op.past? = some past := by
  constructor
  · rintro ⟨⟩ <;> rfl
  · intro h
    cases op <;> cases h
    · exact .eventually
    · exact .always

/-- A mirrored operator over a window with a finite upper end looks ahead to that end. -/
theorem UnaryOp.lookAhead?_of_mirrored {op past : UnaryTemporal} {i : Interval}
    {upper : Offset} (hop : op.Mirrored past) (hupper : i.upper = .finite upper) :
    (UnaryOp.temporal op (some i)).lookAhead? = some ⟨past, upper - i.lower, upper⟩ := by
  simp [lookAhead?, UnaryTemporal.mirrored_iff.mp hop, hupper, Endpoint.offset?]

theorem BinaryOp.lookAhead?_of_until {i : Interval} {upper : Offset}
    (hupper : i.upper = .finite upper) :
    (BinaryOp.temporal .until (some i)).lookAhead? = some ⟨i, upper⟩ := by
  simp [lookAhead?, hupper, Endpoint.offset?, guard, BinaryTemporal.isFuture]

theorem UnaryOp.reach_of_mirrored {op past : UnaryTemporal} {i : Interval} {upper : Offset}
    (hop : op.Mirrored past) (hupper : i.upper = .finite upper) :
    (UnaryOp.temporal op (some i)).reach = upper.toNat :=
  reach_of_lookAhead? (lookAhead?_of_mirrored hop hupper)

theorem BinaryOp.reach_of_until {i : Interval} {upper : Offset}
    (hupper : i.upper = .finite upper) :
    (BinaryOp.temporal .until (some i)).reach = upper.toNat :=
  reach_of_lookAhead? (lookAhead?_of_until hupper)

/-- The leaf reads a variable. -/
def LeafOp.isVariable : LeafOp → Bool
  | .constant _ _ => false
  | .variable _ _ => true

namespace Formula

variable {n s : Nat} {f g left right : Formula} {budget : Offset}

/-- The leaves from left to right. -/
def leaves : Formula → List LeafOp
  | leaf op _ => [op]
  | unary _ operand _ => operand.leaves
  | binary _ left right _ => left.leaves ++ right.leaves

/-- The formula that is read `n` samples later, below bounded future windows whose upper ends
add up to `s`. -/
inductive Shifted (n : Nat) : Nat → Formula → Formula → Prop
  | constant {s x b h} : Shifted n s (leaf (.constant x b) h) (leaf (.constant x b) none)
  /-- Windows that end before the `n` samples are over leave a delay. -/
  | delayed {s v b h} {k : Offset} (hlt : s < n) (hk : s + k.toNat = n) :
      Shifted n s (leaf (.variable v b) h)
        (unary (.temporal .once (some (.point k))) (leaf (.variable v b) none) none)
  | present {s v b h} (hle : n ≤ s) :
      Shifted n s (leaf (.variable v b) h) (leaf (.variable v b) none)
  /-- A window with a width is looked through from its end. -/
  | back {s f g h op past} {i : Interval} {upper width : Offset} (hop : op.Mirrored past)
      (hupper : i.upper = .finite upper) (hlt : i.lower < upper)
      (hwidth : i.lower.toNat + width.toNat = upper.toNat)
      (operand : Shifted n (s + upper.toNat) f g) :
      Shifted n s (unary (.temporal op (some i)) f h)
        (unary (.temporal past (some (.upTo width))) g none)
  /-- The operator over a window that holds one offset is left out. -/
  | dropped {s f g h op past} {i : Interval} (hop : UnaryTemporal.Mirrored op past)
      (hupper : i.upper = .finite i.lower) (operand : Shifted n (s + i.lower.toNat) f g) :
      Shifted n s (unary (.temporal op (some i)) f h) g
  | precedes {s l r l' r' h} {i : Interval} {upper : Offset} (hupper : i.upper = .finite upper)
      (left : Shifted n (s + upper.toNat) l l') (right : Shifted n (s + upper.toNat) r r') :
      Shifted n s (binary (.temporal .until (some i)) l r h)
        (binary (.temporal .precedes (some i)) l' r' none)
  /-- Every other operator stays, with its window. -/
  | unary {s f g op h} (hroot : (unary op f h).isBoundedFuture = false)
      (operand : Shifted n s f g) : Shifted n s (unary op f h) (unary op g none)
  | binary {s l r l' r' op h} (hroot : (binary op l r h).isBoundedFuture = false)
      (left : Shifted n s l l') (right : Shifted n s r r') :
      Shifted n s (binary op l r h) (binary op l' r' none)

theorem toNat_monus_of_eq (hbudget : budget.toNat = n - s) (reach : Offset) :
    (budget.monus reach).toNat = n - (s + reach.toNat) := by
  rw [Offset.toNat_monus, hbudget, Nat.sub_sub]

/-- A variable is shifted by a budget that is what the sum leaves. -/
theorem shifted_delayed {v : Variable} {b : Backend} {h : Option Offset}
    (hbudget : budget.toNat = n - s) :
    Shifted n s (leaf (.variable v b) h) ((leaf (.variable v b) none).delayed budget) := by
  rw [Formula.delayed]
  split
  case isTrue hzero =>
    rw [hzero, UInt64.toNat_zero] at hbudget
    exact .present (by omega)
  case isFalse hzero =>
    have hpos : budget.toNat ≠ 0 := fun h => hzero (UInt64.toNat_inj.mp h)
    exact .delayed (by omega) (by omega)

/-- Pastification under what the sum leaves of the horizon shifts the formula. -/
theorem shifted_pastifyWithin (f : Formula) (hbudget : budget.toNat = n - s) :
    Shifted n s f (f.pastifyWithin budget).value := by
  induction f generalizing budget s with
  | leaf op h =>
      cases op with
      | constant x b => exact .constant
      | «variable» v b => exact shifted_delayed hbudget
  | unary op operand h ih =>
      cases ha : op.lookAhead? with
      | none =>
          rw [value_pastifyWithin_unary ha]
          exact .unary (by rw [isBoundedFuture_unary, ha, Option.isSome_none]) (ih hbudget)
      | some ahead =>
          obtain ⟨f, i, rfl, hpast, hupper, hwidth⟩ := UnaryOp.lookAhead?_eq_some ha
          have hop := UnaryTemporal.mirrored_iff.mpr hpast
          have hle := UInt64.le_iff_toNat_le.mp (Interval.lower_le_of_upper hupper)
          have hdiff : ahead.width.toNat = ahead.reach.toNat - i.lower.toNat := by
            rw [hwidth, UInt64.toNat_sub_of_le _ _ (Interval.lower_le_of_upper hupper)]
          have hoperand := ih (toNat_monus_of_eq hbudget ahead.reach)
          rw [value_pastifyWithin_ahead ha]
          dsimp only
          split
          case isTrue hzero =>
            rw [hzero, UInt64.toNat_zero] at hdiff
            have hlower : i.lower = ahead.reach := UInt64.toNat_inj.mp (by omega)
            rw [← hlower] at hupper hoperand ⊢
            exact .dropped hop hupper hoperand
          case isFalse hzero =>
            have hpos : ahead.width.toNat ≠ 0 := fun h => hzero (UInt64.toNat_inj.mp h)
            exact .back hop hupper (UInt64.lt_iff_toNat_lt.mpr (by omega)) (by omega) hoperand
  | binary op left right h ihl ihr =>
      cases ha : op.lookAhead? with
      | none =>
          rw [value_pastifyWithin_binary ha]
          exact .binary (by rw [isBoundedFuture_binary, ha, Option.isSome_none]) (ihl hbudget)
            (ihr hbudget)
      | some ahead =>
          obtain ⟨rfl, hupper⟩ := BinaryOp.lookAhead?_eq_some ha
          rw [value_pastifyWithin_until ha]
          exact .precedes hupper (ihl (toNat_monus_of_eq hbudget ahead.reach))
            (ihr (toNat_monus_of_eq hbudget ahead.reach))

/-- No other formula is shifted by as much. -/
theorem Shifted.eq_pastifyWithin (h : Shifted n s f g) (hbudget : budget.toNat = n - s) :
    g = (f.pastifyWithin budget).value := by
  induction h generalizing budget with
  | constant => rfl
  | @delayed s v b h k hlt hk =>
      obtain rfl : k = budget := UInt64.toNat_inj.mp (by omega)
      have hpos : k ≠ 0 := by
        rintro rfl
        rw [UInt64.toNat_zero] at hbudget
        omega
      change _ = (leaf (.variable v b) none).delayed k
      rw [Formula.delayed, if_neg hpos, unaryTemporal]
  | @present s v b h hle =>
      obtain rfl : budget = 0 := UInt64.toNat_inj.mp (by rw [UInt64.toNat_zero]; omega)
      rfl
  | @back s f g h op past i upper width hop hupper hlt hwidth operand ih =>
      have hsub : upper - i.lower = width := UInt64.toNat_inj.mp (by
        rw [UInt64.toNat_sub_of_le _ _ (Interval.lower_le_of_upper hupper)]
        omega)
      have hpos : width ≠ 0 := by
        rintro rfl
        rw [UInt64.lt_iff_toNat_lt] at hlt
        rw [UInt64.toNat_zero] at hwidth
        omega
      rw [value_pastifyWithin_ahead (UnaryOp.lookAhead?_of_mirrored hop hupper), hsub]
      simp only [if_neg hpos, ← ih (toNat_monus_of_eq hbudget upper), unaryTemporal]
  | @dropped s f g h op past i hop hupper operand ih =>
      rw [value_pastifyWithin_ahead (UnaryOp.lookAhead?_of_mirrored hop hupper), UInt64.sub_self]
      exact ih (toNat_monus_of_eq hbudget i.lower)
  | @precedes s l r l' r' h i upper hupper left right ihl ihr =>
      rw [value_pastifyWithin_until (BinaryOp.lookAhead?_of_until hupper),
        ← ihl (toNat_monus_of_eq hbudget upper), ← ihr (toNat_monus_of_eq hbudget upper),
        binaryTemporal]
  | unary hroot operand ih =>
      rw [isBoundedFuture_unary, Option.isSome_eq_false_iff, Option.isNone_iff_eq_none] at hroot
      rw [value_pastifyWithin_unary hroot, ← ih hbudget]
  | binary hroot left right ihl ihr =>
      rw [isBoundedFuture_binary, Option.isSome_eq_false_iff, Option.isNone_iff_eq_none] at hroot
      rw [value_pastifyWithin_binary hroot, ← ihl hbudget, ← ihr hbudget]

theorem Shifted.leaves_eq (h : Shifted n s f g) : g.leaves = f.leaves := by
  induction h with
  | constant | delayed | present => rfl
  | back _ _ _ _ _ ih | dropped _ _ _ ih | unary _ _ ih => exact ih
  | precedes _ _ _ ihl ihr | binary _ _ _ ihl ihr => simp only [leaves, ihl, ihr]

/-- The root is `eventually` or `always` over a window that holds one offset. -/
def isInstant (f : Formula) : Bool :=
  match f.operator with
  | .unaryTemporal op => op.isFuture && f.window?.any Interval.isDegenerate
  | _ => false

/-- An operator holds one offset where its look ahead has no width. -/
theorem isInstant_unary (op : UnaryOp) (operand : Formula) (h : Option Offset) :
    (unary op operand h).isInstant = op.lookAhead?.any fun ahead => ahead.width = 0 := by
  cases op with
  | temporal op window =>
      cases op <;> rcases window with _ | ⟨_, _ | _, _⟩ <;> first
        | rfl
        | simp [isInstant, operator, UnaryOp.operator, UnaryTemporal.isFuture, window?,
            UnaryOp.window?, UnaryOp.lookAhead?, UnaryTemporal.past?, Interval.isDegenerate,
            Interval.width, Endpoint.offset?]
  | _ => rfl

theorem isInstant_binary (op : BinaryOp) (left right : Formula) (h : Option Offset) :
    (binary op left right h).isInstant = false := by
  cases op <;> rfl

/-- How many operators look ahead at one operand through a window that holds one offset. -/
def instants (f : Formula) : Nat :=
  f.nodes.countP isInstant

/-- How many variables the sum of the upper ends above them leaves a part of `n`. -/
def delays (n : Nat) (f : Formula) : Nat :=
  (f.leaves.zip f.pathReaches).countP fun (op, s) => op.isVariable && decide (s < n)

theorem instants_leaf (op : LeafOp) (h : Option Offset) : (leaf op h).instants = 0 := by
  cases op <;> simp [instants, nodes_eq_subformulas, subformulas, isInstant, operator,
    LeafOp.operator]

theorem instants_unary (op : UnaryOp) (operand : Formula) (h : Option Offset) :
    (unary op operand h).instants =
      operand.instants + if (unary op operand h).isInstant then 1 else 0 := by
  rw [instants, instants, nodes_eq_subformulas, nodes_eq_subformulas, subformulas,
    List.countP_cons]

theorem instants_binary (op : BinaryOp) (left right : Formula) (h : Option Offset) :
    (binary op left right h).instants = left.instants + right.instants := by
  rw [instants, instants, instants, nodes_eq_subformulas, nodes_eq_subformulas,
    nodes_eq_subformulas, subformulas, List.countP_cons, List.countP_append, isInstant_binary]
  rfl

theorem length_leaves (f : Formula) : f.leaves.length = f.pathReaches.length := by
  induction f with
  | leaf op h => rfl
  | unary op operand h ih => rw [leaves, pathReaches, List.length_map, ih]
  | binary op left right h ihl ihr =>
      rw [leaves, pathReaches, List.length_map, List.length_append, List.length_append, ihl, ihr]

/-- Samples above all leaves leave less of `n` at each of them. -/
theorem countP_zip_add (ops : List LeafOp) (sums : List Nat) (n r : Nat) :
    ((ops.zip (sums.map (r + ·))).countP fun (op, s) => op.isVariable && decide (s < n)) =
      (ops.zip sums).countP fun (op, s) => op.isVariable && decide (s < n - r) := by
  rw [List.zip_map_right, List.countP_map]
  apply List.countP_congr
  rintro ⟨op, s⟩ _
  simp only [Function.comp_apply, Prod.map, id_eq, Bool.and_eq_true, decide_eq_true_eq]
  constructor <;> rintro ⟨hop, hs⟩ <;> exact ⟨hop, by omega⟩

theorem delays_unary (n : Nat) (op : UnaryOp) (operand : Formula) (h : Option Offset) :
    (unary op operand h).delays n = operand.delays (n - op.reach) :=
  countP_zip_add operand.leaves operand.pathReaches n op.reach

theorem delays_binary (n : Nat) (op : BinaryOp) (left right : Formula) (h : Option Offset) :
    (binary op left right h).delays n =
      left.delays (n - op.reach) + right.delays (n - op.reach) := by
  rw [delays, leaves, pathReaches, countP_zip_add, List.zip_append left.length_leaves,
    List.countP_append, delays, delays]

theorem delays_leaf (n : Nat) (op : LeafOp) (h : Option Offset) :
    (leaf op h).delays n = if op.isVariable = true ∧ 0 < n then 1 else 0 := by
  simp [delays, leaves, pathReaches, List.countP_cons]

/-- An operator that is turned to the past is left out if its window holds one offset. -/
theorem instants_of_mirrored {op past : UnaryTemporal} {i : Interval} {upper : Offset}
    (hop : op.Mirrored past) (hupper : i.upper = .finite upper) (f : Formula)
    (h : Option Offset) :
    (Formula.unary (.temporal op (some i)) f h).instants =
      f.instants + if i.lower = upper then 1 else 0 := by
  have hzero : upper - i.lower = 0 ↔ i.lower = upper := by
    have hle := UInt64.le_iff_toNat_le.mp (Interval.lower_le_of_upper hupper)
    rw [← UInt64.toNat_inj, ← UInt64.toNat_inj, UInt64.toNat_zero,
      UInt64.toNat_sub_of_le _ _ (Interval.lower_le_of_upper hupper)]
    omega
  rw [instants_unary, isInstant_unary, UnaryOp.lookAhead?_of_mirrored hop hupper]
  simp [hzero]

/-- No operator without a bounded look ahead is left out. -/
theorem instants_of_not_boundedFuture {op : UnaryOp} {h : Option Offset}
    (hroot : (Formula.unary op f h).isBoundedFuture = false) :
    (Formula.unary op f h).instants = f.instants := by
  rw [isBoundedFuture_unary, Option.isSome_eq_false_iff, Option.isNone_iff_eq_none] at hroot
  rw [instants_unary, isInstant_unary, hroot]
  rfl

/-- A shift costs one node for each variable that is delayed and saves one for each operator
that is left out. -/
theorem Shifted.size_eq (h : Shifted n s f g) :
    g.size + f.instants = f.size + f.delays (n - s) := by
  induction h with
  | constant => simp [size_leaf, instants_leaf, delays_leaf, LeafOp.isVariable]
  | delayed hlt hk =>
      simp [size_leaf, size_unary, instants_leaf, delays_leaf, LeafOp.isVariable,
        Nat.sub_pos_of_lt hlt]
  | present hle =>
      simp [size_leaf, instants_leaf, delays_leaf, LeafOp.isVariable, Nat.sub_eq_zero_of_le hle]
  | back hop hupper hlt hwidth operand ih =>
      rw [size_unary, size_unary, instants_of_mirrored hop hupper, if_neg (UInt64.ne_of_lt hlt),
        delays_unary, UnaryOp.reach_of_mirrored hop hupper, Nat.sub_sub]
      omega
  | dropped hop hupper operand ih =>
      rw [size_unary, instants_of_mirrored hop hupper, if_pos rfl, delays_unary,
        UnaryOp.reach_of_mirrored hop hupper, Nat.sub_sub]
      omega
  | precedes hupper left right ihl ihr =>
      rw [size_binary, size_binary, instants_binary, delays_binary,
        BinaryOp.reach_of_until hupper, Nat.sub_sub]
      omega
  | unary hroot operand ih =>
      rw [size_unary, size_unary, instants_of_not_boundedFuture hroot, delays_unary]
      rw [isBoundedFuture_unary, Option.isSome_eq_false_iff, Option.isNone_iff_eq_none] at hroot
      rw [UnaryOp.reach_eq_zero hroot, Nat.sub_zero]
      omega
  | binary hroot left right ihl ihr =>
      rw [isBoundedFuture_binary, Option.isSome_eq_false_iff, Option.isNone_iff_eq_none] at hroot
      rw [size_binary, size_binary, instants_binary, delays_binary, BinaryOp.reach_eq_zero hroot,
        Nat.sub_zero]
      omega

/-- Pastification under a horizon is the shift by that many samples, and the only one: a
variable is delayed once, by what the upper ends above it leave of the horizon, where they may
add up beyond every offset; windows with a width are looked through from their ends, those
without are left out, `until` precedes, and all else stays. So the leaves stay in their order,
and the sizes differ by the variables that are delayed and the operators that are left out.
Taking every node apart and assembling it again always succeeds and yields the same. -/
theorem shifted_iff_pastify (f : Formula) (n : Offset) :
    let past := (f.pastifyWithHorizon n).value
    (∀ g, Shifted n.toNat 0 f g ↔ g = past) ∧
    past.leaves = f.leaves ∧
    past.size + f.instants = f.size + f.delays n.toNat ∧
    (f.tree.pastifyWithHorizon n).run.value = .ok past.tree := by
  intro past
  have hbudget : n.toNat = n.toNat - 0 := (Nat.sub_zero _).symm
  have hpast : Shifted n.toNat 0 f past := f.shifted_pastifyWithin hbudget
  refine ⟨fun g => ⟨fun h => h.eq_pastifyWithin hbudget, ?_⟩, hpast.leaves_eq, hpast.size_eq,
    f.value_pastifyWithHorizon_tree n⟩
  rintro rfl
  exact hpast

end Formula

end SignalLogic
