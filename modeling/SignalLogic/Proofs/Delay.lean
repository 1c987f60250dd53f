import SignalLogic.Proofs.Demand
import SignalLogic.Proofs.LookAhead
import SignalLogic.Proofs.Semantics

/-!
# Pastification delays

A formula that is pastified with a budget no smaller than its reach has, at every
instant, the value that the formula had as many samples earlier as the budget says.
-/

namespace SignalLogic

universe u

variable {L : Type u} [CompleteLattice L]

namespace Signal

/-- Suprema over two sets of instants, one moved by `n` samples. -/
theorem iSup_delay {A B : Set ℤ} (n : ℤ) (x : Signal L) (h : ∀ s, s ∈ A ↔ s - n ∈ B) :
    ⨆ s ∈ A, x (s - n) = ⨆ s ∈ B, x s := by
  refine (Equiv.subRight n).iSup_congr fun s => ?_
  simp [h s]

/-- Infima over two sets of instants, one moved by `n` samples. -/
theorem iInf_delay {A B : Set ℤ} (n : ℤ) (x : Signal L) (h : ∀ s, s ∈ A ↔ s - n ∈ B) :
    ⨅ s ∈ A, x (s - n) = ⨅ s ∈ B, x s := by
  refine (Equiv.subRight n).iInf_congr fun s => ?_
  simp [h s]

theorem mem_behind_sub (i : Interval) (n t s : ℤ) :
    s ∈ i.behind t ↔ s - n ∈ i.behind (t - n) := by
  constructor
  · rintro ⟨hl, hu⟩
    refine ⟨by omega, fun b hb => ?_⟩
    have := hu b hb
    omega
  · rintro ⟨hl, hu⟩
    refine ⟨by omega, fun b hb => ?_⟩
    have := hu b hb
    omega

theorem mem_ahead_sub (i : Interval) (n t s : ℤ) :
    s ∈ i.ahead t ↔ s - n ∈ i.ahead (t - n) := by
  constructor
  · rintro ⟨hl, hu⟩
    refine ⟨by omega, fun b hb => ?_⟩
    have := hu b hb
    omega
  · rintro ⟨hl, hu⟩
    refine ⟨by omega, fun b hb => ?_⟩
    have := hu b hb
    omega

/-- A late `until` is the `until` of late operands. -/
theorem untilOver_delay (i : Interval) (n : ℤ) (x y : Signal L) :
    untilOver i (x.delay n) (y.delay n) = (untilOver i x y).delay n := by
  ext t
  have hx (s : ℤ) : ⨅ r ∈ Set.Ico t s, x (r - n) = ⨅ r ∈ Set.Ico (t - n) (s - n), x r :=
    iInf_delay n x fun r => by simp
  simp only [untilOver, delay_apply, hx]
  exact iSup_delay n (fun s => y s ⊓ ⨅ r ∈ Set.Ico (t - n) s, x r) (mem_ahead_sub i n t)

/-- A late `since` is the `since` of late operands. -/
theorem sinceOver_delay (i : Interval) (n : ℤ) (x y : Signal L) :
    sinceOver i (x.delay n) (y.delay n) = (sinceOver i x y).delay n := by
  ext t
  have hx (s : ℤ) : ⨅ r ∈ Set.Ioc s t, x (r - n) = ⨅ r ∈ Set.Ioc (s - n) (t - n), x r :=
    iInf_delay n x fun r => by simp
  simp only [sinceOver, delay_apply, hx]
  exact iSup_delay n (fun s => y s ⊓ ⨅ r ∈ Set.Ioc s (t - n), x r) (mem_behind_sub i n t)

end Signal

namespace Interval

/-- Looking back over the width of a window shows what the window showed ahead, from as
many samples earlier as it reaches. -/
theorem behind_upTo {i : Interval} {b : Offset} (hb : i.upper = .finite b) (t : ℤ) :
    (upTo (b - i.lower)).behind t = i.ahead (t - b.toNat) := by
  have hw : (b - i.lower).toNat = b.toNat - i.lower.toNat :=
    UInt64.toNat_sub_of_le _ _ (lower_le_of_upper hb)
  have hl : i.lower.toNat ≤ b.toNat := UInt64.le_iff_toNat_le.mp (lower_le_of_upper hb)
  ext s
  simp only [behind, ahead, upTo, hb, Set.mem_ofPred_eq, Endpoint.finite.injEq, forall_eq', hw]
  change s ≤ t - (0 : Nat) ∧ _ ↔ _
  omega

/-- A past window of width zero shows the present alone. -/
theorem behind_upTo_zero (t : ℤ) : (upTo 0).behind t = {t} := by
  ext s
  simp only [behind, upTo, Set.mem_ofPred_eq, Endpoint.finite.injEq, forall_eq',
    Set.mem_singleton_iff]
  change s ≤ t - (0 : Nat) ∧ t - (0 : Nat) ≤ s ↔ s = t
  omega

/-- A past window of one offset shows one instant. -/
theorem behind_point (n : Offset) (t : ℤ) : (point n).behind t = {t - n.toNat} := by
  ext s
  simp only [behind, point, Set.mem_ofPred_eq, Endpoint.finite.injEq, forall_eq',
    Set.mem_singleton_iff]
  omega

end Interval

namespace UnaryTemporal

/-- A late window operator is the one over a late operand. -/
theorem over_delay (op : UnaryTemporal) (i : Interval) (n : ℤ) (x : Signal L) :
    op.over i (x.delay n) = (op.over i x).delay n := by
  ext t
  cases op with
  | once => exact Signal.iSup_delay n x (Signal.mem_behind_sub i n t)
  | historically => exact Signal.iInf_delay n x (Signal.mem_behind_sub i n t)
  | eventually => exact Signal.iSup_delay n x (Signal.mem_ahead_sub i n t)
  | always => exact Signal.iInf_delay n x (Signal.mem_ahead_sub i n t)

/-- Looking back over the width of a window is looking ahead through it from as many
samples earlier as it reaches. -/
theorem over_upTo {op past : UnaryTemporal} (hp : op.past? = some past) {i : Interval}
    {b : Offset} (hb : i.upper = .finite b) (x : Signal L) :
    past.over (Interval.upTo (b - i.lower)) x = (op.over i x).delay b.toNat := by
  ext t
  cases op with
  | once => cases hp
  | historically => cases hp
  | eventually =>
      cases hp
      simp only [UnaryTemporal.over, Signal.delay_apply, Interval.behind_upTo hb]
  | always =>
      cases hp
      simp only [UnaryTemporal.over, Signal.delay_apply, Interval.behind_upTo hb]

/-- A past window of width zero holds the present alone. -/
theorem over_upTo_zero {past op : UnaryTemporal} (hp : op.past? = some past) (x : Signal L) :
    past.over (Interval.upTo 0) x = x := by
  ext t
  cases op with
  | once => cases hp
  | historically => cases hp
  | eventually =>
      cases hp
      simp [UnaryTemporal.over, Interval.behind_upTo_zero]
  | always =>
      cases hp
      simp [UnaryTemporal.over, Interval.behind_upTo_zero]

end UnaryTemporal

/-- Meanings do not depend on horizons. -/
theorem Interpretation.meaning_mapHorizon (I : Interpretation L) (trace : Variable → Signal L)
    (g : Formula → Option Offset) (f : Formula) :
    I.meaning trace (f.mapHorizon g) = I.meaning trace f := by
  induction f with
  | leaf op h => cases op <;> rfl
  | unary op operand h ih => simp only [Formula.mapHorizon, meaning, ih]
  | binary op left right h ihl ihr => simp only [Formula.mapHorizon, meaning, ihl, ihr]

namespace InvariantInterpretation

variable (I : InvariantInterpretation L) (trace : Variable → Signal L)

/-- Every unary operator commutes with delays. -/
theorem unary_delay (op : UnaryOp) (n : ℤ) (x : Signal L) :
    I.unary op (x.delay n) = (I.unary op x).delay n := by
  cases op with
  | abs b => rfl
  | not => rfl
  | edge op => exact I.edge_delay op n x
  | temporal op window => exact op.over_delay (Interval.ofOption window) n x

/-- Every binary operator commutes with delays. -/
theorem binary_delay (op : BinaryOp) (n : ℤ) (x y : Signal L) :
    I.binary op (x.delay n) (y.delay n) = (I.binary op x y).delay n := by
  cases op with
  | arithmetic op b => rfl
  | comparison op b => rfl
  | logic op => rfl
  | temporal op window =>
      cases op with
      | since => exact Signal.sinceOver_delay (Interval.ofOption window) n x y
      | «until» => exact Signal.untilOver_delay (Interval.ofOption window) n x y
      | precedes =>
          simp only [Interpretation.binary]
          split
          case h_1 b _ =>
            rw [Signal.untilOver_delay, Signal.delay_delay, Signal.delay_delay, Int.add_comm]
          case h_2 => exact I.precedes_delay window n x y

/-- A variable that is read as many samples ago as the budget says is late by the
budget. -/
theorem meaning_delayed (n : Offset) (f : Formula) :
    I.meaning trace (f.delayed n) = (I.meaning trace f).delay n.toNat := by
  unfold Formula.delayed
  split
  case isTrue h =>
    subst h
    exact (Signal.delay_zero _).symm
  case isFalse h =>
    ext t
    simp [Formula.unaryTemporal, Interpretation.meaning, Interpretation.unary,
      UnaryTemporal.over, Interval.ofOption, Interval.behind_point]

/-- A budget that covers the reach of a formula is exactly the delay that
pastification puts on it. -/
theorem meaning_pastifyWithin (f : Formula) (n : Offset) (hn : f.reach ≤ n.toNat) :
    I.meaning trace (f.pastifyWithin n).value = (I.meaning trace f).delay n.toNat := by
  induction f generalizing n with
  | leaf op h =>
      cases op with
      | constant value backend => rfl
      | «variable» v backend => exact I.meaning_delayed trace n _
  | unary op operand h ih =>
      cases ha : op.lookAhead? with
      | none =>
          rw [Formula.reach, UnaryOp.reach_eq_zero ha] at hn
          rw [Formula.value_pastifyWithin_unary ha]
          simp only [Interpretation.meaning]
          rw [ih n (by omega), I.unary_delay]
      | some ahead =>
          obtain ⟨op, i, rfl, hp, hu, hw⟩ := UnaryOp.lookAhead?_eq_some ha
          rw [Formula.reach, UnaryOp.reach_of_lookAhead? ha] at hn
          -- The operand is late by what is left of the budget, and looking back over the
          -- width of the window is late by its reach.
          have hoperand := ih (n.monus ahead.reach) (by simp; omega)
          have hwindow : I.meaning trace
              ((Formula.unary (.temporal op (some i)) operand h).pastifyWithin n).value =
                ahead.past.over (Interval.upTo ahead.width)
                  (I.meaning trace (operand.pastifyWithin (n.monus ahead.reach)).value) := by
            rw [Formula.value_pastifyWithin_ahead ha]
            split
            case isTrue hz => rw [hz, UnaryTemporal.over_upTo_zero hp]
            case isFalse => rfl
          rw [hwindow, hoperand, hw, UnaryTemporal.over_upTo hp hu]
          simp only [Interpretation.meaning, Interpretation.unary, Interval.ofOption,
            Option.getD_some]
          rw [UnaryTemporal.over_delay, Signal.delay_delay]
          congr 1
          simp
          omega
  | binary op left right h ihl ihr =>
      cases ha : op.lookAhead? with
      | none =>
          rw [Formula.reach, BinaryOp.reach_eq_zero ha] at hn
          rw [Formula.value_pastifyWithin_binary ha]
          simp only [Interpretation.meaning]
          rw [ihl n (by omega), ihr n (by omega), I.binary_delay]
      | some ahead =>
          obtain ⟨rfl, hu⟩ := BinaryOp.lookAhead?_eq_some ha
          rw [Formula.reach, BinaryOp.reach_of_lookAhead? ha] at hn
          have hl := ihl (n.monus ahead.reach) (by simp; omega)
          have hr := ihr (n.monus ahead.reach) (by simp; omega)
          rw [Formula.value_pastifyWithin_until ha]
          simp only [Formula.binaryTemporal, Interpretation.meaning, Interpretation.binary,
            Interval.ofOption, Option.getD_some, Option.bind_some, hu, Endpoint.offset?]
          rw [hl, hr, Signal.untilOver_delay, Signal.delay_delay]
          congr 1
          simp
          omega

theorem meaning_annotate (f : Formula) :
    I.meaning trace f.annotate.value = I.meaning trace f := by
  rw [Formula.value_annotate, Interpretation.meaning_mapHorizon]

/-- Pastification keeps meanings under the delay: for every budget that covers the
bounded future on each path, and so for the horizon that the horizon pass computes,
the result has after the delay the value that the formula has now. -/
theorem meaning_pastify (f : Formula) (t : ℤ) :
    (∀ n : Offset, (∀ s ∈ f.pathReaches, s ≤ n.toNat) →
      I.meaning trace (f.pastifyWithHorizon n).value (t + n.toNat) = I.meaning trace f t) ∧
    (∀ n : Offset, f.computeHorizon.value.horizon = some n →
      I.meaning trace (f.pastifyWithHorizon n).value (t + n.toNat) = I.meaning trace f t ∧
      ∃ past, f.computeHorizon.value.pastify = .ok past ∧
        I.meaning trace past.value (t + n.toNat) = I.meaning trace f t) := by
  have hdelay (g : Formula) (n : Offset) (hn : g.reach ≤ n.toNat) :
      I.meaning trace (g.pastifyWithHorizon n).value (t + n.toNat) = I.meaning trace g t := by
    rw [Formula.value_pastifyWithHorizon, I.meaning_pastifyWithin trace g n hn]
    simp
  constructor
  · intro n hn
    exact hdelay f n ((f.pathReaches_le_iff n.toNat).mp hn)
  · intro n hn
    rw [Formula.value_computeHorizon] at hn ⊢
    have hreach := ((f.horizon_annotate_eq_some_iff n).mp hn).2.le
    refine ⟨hdelay f n hreach, f.annotate.value.pastifyWithHorizon n, ?_, ?_⟩
    · simp [Formula.pastify, hn]
    · rw [hdelay _ n (by rwa [Formula.reach_annotate]), I.meaning_annotate]

/-- Signals that hold or fail at each instant. A comparison holds when it holds of two
truth values, false before true, and `precedes` without a finite upper bound asks that
the first operand held before the second one did. -/
def boolean : InvariantInterpretation Prop where
  constant value := Value.isZero value = false
  abs x := x
  arithmetic _ x y := x ∧ y
  comparison op x y :=
    match op with
    | .less => ¬ x ∧ y
    | .atMost => x → y
    | .greater => x ∧ ¬ y
    | .atLeast => y → x
    | .equal => x ↔ y
    | .different => ¬ (x ↔ y)
  not x := ¬ x
  logic op x y :=
    match op with
    | .conjunction => x ∧ y
    | .disjunction => x ∨ y
    | .implication => x → y
    | .equivalence => x ↔ y
    | .exclusion => ¬ (x ↔ y)
  edge op x t :=
    match op with
    | .rise => ¬ x (t - 1) ∧ x t
    | .fall => x (t - 1) ∧ ¬ x t
  precedes _ x y t := ∀ k : ℕ, y (t - k) → ∃ j : ℕ, x (t - k - j)
  edge_delay op n x := by
    ext t
    cases op <;> simp [sub_right_comm]
  precedes_delay window n x y := by
    ext t
    simp [sub_right_comm]

/-- A request that starts two samples from now is followed by a grant that is held
until an acknowledgement is due four samples later. -/
def heldGrant : Formula :=
  .logic .implication
    (.unaryTemporal .eventually (some (.point 2)) (.edge .rise (.ofVariable (.named "req"))))
    (.binaryTemporal .until (some ⟨1, .finite 2, by decide⟩)
      (.ofVariable (.named "gnt"))
      (.unaryTemporal .historically (some ⟨0, .finite 3, by decide⟩)
        (.unaryTemporal .eventually (some ⟨3, .finite 4, by decide⟩)
          (.ofVariable (.named "ack")))))

theorem meaning_pastify_heldGrant :
    let trace : Variable → Signal Prop := fun v t => v.name = "req" ↔ 3 ∣ t
    (∀ s ∈ heldGrant.pathReaches, s ≤ (6 : Offset).toNat) ∧
    heldGrant.computeHorizon.value.horizon = some 6 ∧
    boolean.meaning trace (heldGrant.pastifyWithHorizon 6).value (1 + (6 : Offset).toNat) =
      boolean.meaning trace heldGrant 1 ∧
    ∃ past, heldGrant.computeHorizon.value.pastify = .ok past ∧
      boolean.meaning trace past.value (1 + (6 : Offset).toNat) =
        boolean.meaning trace heldGrant 1 := by
  intro trace
  have hpaths : ∀ s ∈ heldGrant.pathReaches, s ≤ (6 : Offset).toNat := by decide
  have hhorizon : heldGrant.computeHorizon.value.horizon = some 6 := by decide
  have hmeaning := meaning_pastify boolean trace heldGrant 1
  exact ⟨hpaths, hhorizon, hmeaning.1 6 hpaths, (hmeaning.2 6 hhorizon).2⟩

end InvariantInterpretation

end SignalLogic
