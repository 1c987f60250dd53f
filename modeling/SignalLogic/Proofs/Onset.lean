import SignalLogic.Proofs.Delay

/-!
# Traces that begin

A monitor sees traces that begin at sample 0, where past windows are cut. A formula that
is pastified under a budget is read before it, too: there every variable is false, for as
many samples as the budget says. What it says about the trace is what the formula says
about the trace with these samples in front.
-/

namespace SignalLogic

/-- Variables that hold or fail at every sample of a trace that begins at sample 0. -/
abbrev Recording := Variable → ℕ → Prop

/-- Verdict of a connective on two verdicts. -/
def Logic.Holds (op : Logic) (p q : Prop) : Prop :=
  match op with
  | .conjunction => p ∧ q
  | .disjunction => p ∨ q
  | .implication => p → q
  | .equivalence => p ↔ q
  | .exclusion => ¬ (p ↔ q)

namespace UnaryTemporal

variable {ι : Type}

/-- The instants that an operator looks at from an instant, behind it or ahead. -/
def window (op : UnaryTemporal) (i : Interval) (t : ℤ) : Set ℤ :=
  if op.isFuture then i.ahead t else i.behind t

/-- Verdict of a window operator that looks at the given instants. -/
def Holds (op : UnaryTemporal) (window : Set ι) (x : ι → Prop) : Prop :=
  match op with
  | .once | .eventually => ∃ s ∈ window, x s
  | .historically | .always => ∀ s ∈ window, x s

/-- Verdict of a window operator that looks at no instant. -/
def idle : UnaryTemporal → Bool
  | .once | .eventually => false
  | .historically | .always => true

theorem holds_singleton (op : UnaryTemporal) (s : ι) (x : ι → Prop) :
    op.Holds {s} x ↔ x s := by
  cases op <;> simp [Holds]

/-- The past operator asks of its window what the future one asks. -/
theorem holds_past {op past : UnaryTemporal} (hp : op.past? = some past) (window : Set ι)
    (x : ι → Prop) : past.Holds window x ↔ op.Holds window x := by
  cases op <;> cases hp <;> rfl

/-- Samples that are counted from `n` samples before the trace, in place of instants. -/
theorem holds_shift (op : UnaryTemporal) (A : Set ℤ) {x : ℕ → Prop} {y : ℤ → Prop} {n : ℕ}
    (h : ∀ s : ℕ, x s ↔ y (s - n)) :
    op.Holds {s : ℕ | (s : ℤ) - n ∈ A} x ↔ op.Holds {s ∈ A | -(n : ℤ) ≤ s} y := by
  have hrange : {s ∈ A | -(n : ℤ) ≤ s} = (fun s : ℕ => (s : ℤ) - n) '' {s | (s : ℤ) - n ∈ A} := by
    ext s
    constructor
    · rintro ⟨hs, hn⟩
      exact ⟨(s + n).toNat, by simpa [Int.toNat_of_nonneg (show 0 ≤ s + n by omega)] using hs,
        by simp; omega⟩
    · rintro ⟨k, hk, rfl⟩
      exact ⟨hk, by dsimp only; omega⟩
  cases op <;> simp [Holds, hrange, h]

end UnaryTemporal

namespace Formula

/-- Formulas built from variables and connectives with `once` and `historically`, bounded
or not, and bounded `eventually` and `always`. -/
inductive Modal : Formula → Prop
  | variable (v : Variable) (backend : Backend) (h : Option Offset) :
      Modal (leaf (.variable v backend) h)
  | not {operand : Formula} (h : Option Offset) : Modal operand → Modal (unary .not operand h)
  | logic (op : Logic) {left right : Formula} (h : Option Offset) :
      Modal left → Modal right → Modal (binary (.logic op) left right h)
  | past {op : UnaryTemporal} (hop : op.isFuture = false) (window : Option Interval)
      {operand : Formula} (h : Option Offset) :
      Modal operand → Modal (unary (.temporal op window) operand h)
  | future {op : UnaryTemporal} (hop : op.isFuture = true) {i : Interval} {b : Offset}
      (hb : i.upper = .finite b) {operand : Formula} (h : Option Offset) :
      Modal operand → Modal (unary (.temporal op (some i)) operand h)

/-- Verdict of a formula at a sample of a trace that begins at sample 0. Windows are cut
there, so a past window may be empty. Operators that no `Modal` formula has never hold. -/
def holds (trace : Recording) : Formula → ℕ → Prop
  | leaf (.variable v _) _, t => trace v t
  | unary .not operand _, t => ¬ operand.holds trace t
  | unary (.temporal op window) operand _, t =>
      op.Holds {s : ℕ | (s : ℤ) ∈ op.window (Interval.ofOption window) t} (operand.holds trace)
  | binary (.logic op) left right _, t => op.Holds (left.holds trace t) (right.holds trace t)
  | _, _ => False

/-- Verdict of a formula at an instant when `n` samples precede the trace in which every
variable is false. Windows are cut at the first of them. A look ahead uses up as many of
these samples for its operand as it reaches. -/
def holdsAfter (trace : Recording) (n : ℕ) : Formula → ℤ → Prop
  | leaf (.variable v _) _, t => ∃ s : ℕ, (s : ℤ) = t ∧ trace v s
  | unary .not operand _, t => ¬ operand.holdsAfter trace n t
  | unary (.temporal op window) operand _, t =>
      let m := n - (UnaryOp.temporal op window).reach
      op.Holds {s ∈ op.window (Interval.ofOption window) t | -(m : ℤ) ≤ s}
        (operand.holdsAfter trace m)
  | binary (.logic op) left right _, t =>
      op.Holds (left.holdsAfter trace n t) (right.holdsAfter trace n t)
  | _, _ => False

end Formula

/-- A past operator is not a bounded look ahead. -/
theorem UnaryOp.lookAhead?_past {op : UnaryTemporal} (hop : op.isFuture = false)
    (window : Option Interval) : (UnaryOp.temporal op window).lookAhead? = none := by
  cases op with
  | once => rfl
  | historically => rfl
  | eventually => cases hop
  | always => cases hop

/-- A future operator over a finite window is a bounded look ahead. -/
theorem UnaryOp.lookAhead?_future {op : UnaryTemporal} (hop : op.isFuture = true) {i : Interval}
    {b : Offset} (hb : i.upper = .finite b) :
    ∃ past, op.past? = some past ∧
      (UnaryOp.temporal op (some i)).lookAhead? = some ⟨past, b - i.lower, b⟩ := by
  cases op with
  | once => cases hop
  | historically => cases hop
  | eventually => exact ⟨.once, rfl, by simp [lookAhead?, UnaryTemporal.past?, hb, Endpoint.offset?]⟩
  | always =>
      exact ⟨.historically, rfl, by simp [lookAhead?, UnaryTemporal.past?, hb, Endpoint.offset?]⟩

namespace Formula

variable {trace : Recording}

/-- Samples before the trace do not change what a variable says about the trace. -/
theorem holdsAfter_variable (v : Variable) (backend : Backend) (h : Option Offset) (n k : ℕ) :
    (leaf (.variable v backend) h).holdsAfter trace n k ↔ trace v k := by
  simp only [holdsAfter]
  constructor
  · rintro ⟨s, hs, hv⟩
    rwa [← Int.natCast_inj.mp hs]
  · exact fun hv => ⟨k, rfl, hv⟩

/-- A variable that is read as many samples ago as the budget says fails before the trace. -/
theorem holds_delayed_variable (v : Variable) (backend : Backend) (h : Option Offset)
    (n : Offset) (k : ℕ) :
    ((leaf (.variable v backend) h).delayed n).holds trace k ↔
      (leaf (.variable v backend) h).holdsAfter trace n.toNat (k - n.toNat) := by
  unfold delayed
  split
  case isTrue hn =>
    subst hn
    exact (holdsAfter_variable v backend h 0 k).symm
  case isFalse hn =>
    simp [unaryTemporal, holds, holdsAfter, UnaryTemporal.Holds, UnaryTemporal.window,
      Interval.ofOption, Interval.behind_point, UnaryTemporal.isFuture]

/-- Looking back over the width of a window is looking ahead through it. Samples are counted
from as many before the trace as the budget of the operand says. -/
theorem holds_lookBack {op past : UnaryTemporal} (hp : op.past? = some past) {i : Interval}
    {b : Offset} (hb : i.upper = .finite b) (operand : Formula) (k : ℕ) :
    (if b - i.lower = 0 then operand
      else unaryTemporal past (some (Interval.upTo (b - i.lower))) operand).holds trace k ↔
      op.Holds {s : ℕ | (s : ℤ) ∈ i.ahead (k - b.toNat)} (operand.holds trace) := by
  have hpast : past.isFuture = false := UnaryTemporal.isFuture_of_past? hp
  rw [← UnaryTemporal.holds_past hp, ← Interval.behind_upTo hb]
  split
  case isTrue hw =>
    have hpresent : {s : ℕ | (s : ℤ) ∈ (Interval.upTo (b - i.lower)).behind k} = {k} := by
      rw [hw]
      ext s
      simp only [Interval.behind_upTo_zero, Set.mem_ofPred_eq, Set.mem_singleton_iff,
        Int.natCast_inj]
    rw [hpresent, UnaryTemporal.holds_singleton]
  case isFalse =>
    simp [unaryTemporal, holds, UnaryTemporal.window, hpast, Interval.ofOption]

/-- A formula that is pastified under a budget that covers its reach says about a trace what
the formula says about the trace with as many samples in front as the budget says. -/
theorem holds_pastifyWithin_iff {f : Formula} (hf : f.Modal) {n : Offset}
    (hn : f.reach ≤ n.toNat) (k : ℕ) :
    (f.pastifyWithin n).value.holds trace k ↔ f.holdsAfter trace n.toNat (k - n.toNat) := by
  induction hf generalizing n k with
  | «variable» v backend h => exact holds_delayed_variable v backend none n k
  | not h _ ih =>
      have hreach : UnaryOp.not.reach = 0 := UnaryOp.reach_eq_zero rfl
      rw [reach, hreach] at hn
      rw [value_pastifyWithin_unary rfl]
      simp only [holds, holdsAfter]
      rw [ih (by omega) k]
  | logic op h _ _ ihl ihr =>
      have hreach : (BinaryOp.logic op).reach = 0 := BinaryOp.reach_eq_zero rfl
      rw [reach, hreach] at hn
      rw [value_pastifyWithin_binary rfl]
      simp only [holds, holdsAfter]
      rw [ihl (by omega) k, ihr (by omega) k]
  | @past op hop window operand h _ ih =>
      have ha := UnaryOp.lookAhead?_past hop window
      rw [reach, UnaryOp.reach_eq_zero ha] at hn
      rw [value_pastifyWithin_unary ha]
      simp only [holds, holdsAfter, UnaryOp.reach_eq_zero ha, Nat.sub_zero, UnaryTemporal.window,
        hop]
      have hset : {s : ℕ | (s : ℤ) ∈ (Interval.ofOption window).behind k} =
          {s : ℕ | (s : ℤ) - n.toNat ∈ (Interval.ofOption window).behind (k - n.toNat)} := by
        ext s
        exact Signal.mem_behind_sub _ _ _ _
      simp only [Bool.false_eq_true, if_false, hset]
      exact op.holds_shift _ fun s => ih (by omega) s
  | @future op hop i b hb operand h _ ih =>
      obtain ⟨past, hp, ha⟩ := UnaryOp.lookAhead?_future hop hb
      have hreach : (UnaryOp.temporal op (some i)).reach = b.toNat :=
        UnaryOp.reach_of_lookAhead? ha
      rw [reach, hreach] at hn
      rw [value_pastifyWithin_ahead ha]
      simp only [holdsAfter, hreach, UnaryTemporal.window, hop, if_true]
      -- The operand is read with what is left of the budget, so its samples are counted from
      -- fewer samples before the trace than those of the operator.
      let m : ℕ := n.toNat - b.toNat
      have hset : {s : ℕ | (s : ℤ) ∈ i.ahead (k - b.toNat)} =
          {s : ℕ | (s : ℤ) - m ∈ i.ahead (k - n.toNat)} := by
        ext s
        rw [Set.mem_ofPred_eq, Set.mem_ofPred_eq, Signal.mem_ahead_sub i m (k - b.toNat) s]
        congr! 2
        omega
      have hoperand (s : ℕ) : (operand.pastifyWithin (n.monus b)).value.holds trace s ↔
          operand.holdsAfter trace m (s - m) := by
        rw [ih (by simp; omega) s, Offset.toNat_monus]
      calc (if b - i.lower = 0 then (operand.pastifyWithin (n.monus b)).value
            else unaryTemporal past (some (Interval.upTo (b - i.lower)))
              (operand.pastifyWithin (n.monus b)).value).holds trace k
          ↔ op.Holds {s : ℕ | (s : ℤ) ∈ i.ahead (k - b.toNat)}
              ((operand.pastifyWithin (n.monus b)).value.holds trace) :=
            holds_lookBack hp hb _ k
        _ ↔ op.Holds {s : ℕ | (s : ℤ) - m ∈ i.ahead (k - n.toNat)}
              ((operand.pastifyWithin (n.monus b)).value.holds trace) := by rw [hset]
        _ ↔ op.Holds {s ∈ i.ahead (k - n.toNat) | -(m : ℤ) ≤ s} (operand.holdsAfter trace m) :=
            op.holds_shift _ hoperand

end Formula

end SignalLogic
