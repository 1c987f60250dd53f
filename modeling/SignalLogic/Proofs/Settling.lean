import SignalLogic.Proofs.Onset

/-!
# When pastified formulas settle

A pastified past operator also looks at the samples before the trace, where every variable
is false. That changes its verdict unless its operand is known to have the verdict there
that the operator has over nothing. Otherwise the operator settles only when its window has
left these samples, and never if the window is infinite.
-/

namespace SignalLogic

namespace Logic

/-- Verdict of a connective on two known verdicts. -/
def eval (op : Logic) (a b : Bool) : Bool :=
  match op with
  | .conjunction => a && b
  | .disjunction => a || b
  | .implication => !a || b
  | .equivalence => a == b
  | .exclusion => a != b

theorem holds_iff_eval (op : Logic) (a b : Bool) :
    op.Holds (a = true) (b = true) ↔ op.eval a b = true := by
  cases op <;> cases a <;> cases b <;> simp [Holds, eval]

/-- The verdicts that a partly known one may be. -/
def candidates : Option Bool → List Bool
  | some a => [a]
  | none => [false, true]

theorem mem_candidates {a : Option Bool} {x : Bool} :
    x ∈ candidates a ↔ ∀ v, a = some v → x = v := by
  cases a <;> cases x <;> simp [candidates]

/-- Verdict of a connective on partly known verdicts, known where it is the same for all
that they may be. -/
def eval? (op : Logic) (a b : Option Bool) : Option Bool :=
  let verdicts := (candidates a).flatMap fun x => (candidates b).map (op.eval x)
  if verdicts.all (· = true) then some true
  else if verdicts.all (· = false) then some false
  else none

/-- A known verdict is the one of all verdicts that the operands may have. -/
theorem eval_of_eval? {op : Logic} {a b : Option Bool} {v : Bool} (h : op.eval? a b = some v)
    {x y : Bool} (hx : x ∈ candidates a) (hy : y ∈ candidates b) : op.eval x y = v := by
  have hmem : op.eval x y ∈ (candidates a).flatMap fun x => (candidates b).map (op.eval x) :=
    List.mem_flatMap.mpr ⟨x, hx, List.mem_map.mpr ⟨y, hy, rfl⟩⟩
  simp only [eval?] at h
  split at h
  case isTrue hall =>
    cases h
    exact of_decide_eq_true (List.all_eq_true.mp hall _ hmem)
  case isFalse =>
    split at h
    case isTrue hall =>
      cases h
      exact of_decide_eq_true (List.all_eq_true.mp hall _ hmem)
    case isFalse => cases h

/-- What is known of the verdict of a connective holds of it. -/
theorem holds_of_eval? {op : Logic} {a b : Option Bool} {v : Bool} (h : op.eval? a b = some v)
    {p q : Prop} (hp : ∀ x, a = some x → (p ↔ x = true))
    (hq : ∀ y, b = some y → (q ↔ y = true)) : op.Holds p q ↔ v = true := by
  classical
  have hx : decide p ∈ candidates a :=
    mem_candidates.mpr fun x ha => Bool.eq_iff_iff.mpr (by simpa using hp x ha)
  have hy : decide q ∈ candidates b :=
    mem_candidates.mpr fun y hb => Bool.eq_iff_iff.mpr (by simpa using hq y hb)
  rw [← eval_of_eval? h hx hy, ← holds_iff_eval, decide_eq_true_iff, decide_eq_true_iff]

end Logic

namespace UnaryTemporal

/-- An operator over operands that all have its verdict over nothing has that verdict. -/
theorem holds_idle (op : UnaryTemporal) {ι : Type} {A : Set ι} {x : ι → Prop}
    (h : ∀ s ∈ A, (x s ↔ op.idle = true)) : op.Holds A x ↔ op.idle = true := by
  cases op with
  | once => simpa [Holds, idle] using h
  | historically => simpa [Holds, idle] using h
  | eventually => simpa [Holds, idle] using h
  | always => simpa [Holds, idle] using h

/-- Instants before the trace do not count where the operand has the verdict there that the
operator has over nothing. -/
theorem holds_cut (op : UnaryTemporal) {A : Set ℤ} (m : ℕ) {x : ℕ → Prop} {y : ℤ → Prop}
    (hx : ∀ s : ℕ, (s : ℤ) ∈ A → (y s ↔ x s))
    (hidle : ∀ s ∈ A, -(m : ℤ) ≤ s → s < 0 → (y s ↔ op.idle = true)) :
    op.Holds {s ∈ A | -(m : ℤ) ≤ s} y ↔ op.Holds {s : ℕ | (s : ℤ) ∈ A} x := by
  have hlate (s : ℕ) : -(m : ℤ) ≤ s := by omega
  have hall (h : op.idle = true) :
      (∀ s ∈ {s ∈ A | -(m : ℤ) ≤ s}, y s) ↔ ∀ s : ℕ, (s : ℤ) ∈ A → x s := by
    constructor
    · exact fun hy s hs => (hx s hs).mp (hy s ⟨hs, hlate s⟩)
    · rintro hall s ⟨hs, hm⟩
      cases s with
      | ofNat s => exact (hx s hs).mpr (hall s hs)
      | negSucc s => exact (hidle _ hs hm (Int.negSucc_lt_zero s)).mpr h
  have hsome (h : op.idle = false) :
      (∃ s ∈ {s ∈ A | -(m : ℤ) ≤ s}, y s) ↔ ∃ s : ℕ, (s : ℤ) ∈ A ∧ x s := by
    constructor
    · rintro ⟨s, ⟨hs, hm⟩, hy⟩
      cases s with
      | ofNat s => exact ⟨s, hs, (hx s hs).mp hy⟩
      | negSucc s =>
          rw [hidle _ hs hm (Int.negSucc_lt_zero s), h] at hy
          cases hy
    · rintro ⟨s, hs, hx'⟩
      exact ⟨s, ⟨hs, hlate s⟩, (hx s hs).mpr hx'⟩
  cases op with
  | once => exact hsome rfl
  | historically => exact hall rfl
  | eventually => exact hsome rfl
  | always => exact hall rfl

end UnaryTemporal

namespace Formula

/-- The verdict of a formula at every instant before the trace, where it can be told. -/
def rest : Formula → Option Bool
  | leaf (.variable _ _) _ => some false
  | unary .not operand _ => operand.rest.map (!·)
  | unary (.temporal op _) operand _ =>
      if op.isFuture = false ∧ operand.rest = some op.idle then some op.idle else none
  | binary (.logic op) left right _ => op.eval? left.rest right.rest
  | _ => none

/-- The sample from which on the verdict of a formula under a budget is the one on the trace
alone, where there is one. A window ahead settles as soon as it starts where its operand has
settled. -/
def settling (n : ℕ) : Formula → Option ℕ
  | leaf _ _ => some 0
  | unary (.temporal op window) operand _ => do
      let i := Interval.ofOption window
      let k ← operand.settling (n - (UnaryOp.temporal op window).reach)
      if op.isFuture then
        return k - i.lower.toNat
      -- Nothing precedes the trace, or what precedes it does not count.
      else if k = 0 ∧ (n = 0 ∨ operand.rest = some op.idle) then
        return 0
      -- The window must have left all samples where the operand has not settled.
      else
        return (← i.upper.offset?).toNat + k
  | unary _ operand _ => operand.settling n
  | binary _ left right _ => do
      return max (← left.settling n) (← right.settling n)

variable {trace : Recording}

/-- Before the trace a formula has the verdict that can be told. -/
theorem holdsAfter_iff_rest {f : Formula} (hf : f.Modal) {n : ℕ} {t : ℤ} (ht : t < 0) {v : Bool}
    (hv : f.rest = some v) : f.holdsAfter trace n t ↔ v = true := by
  induction hf generalizing t v with
  | «variable» w backend h =>
      cases hv
      simp only [holdsAfter, Bool.false_eq_true, iff_false]
      rintro ⟨s, hs, -⟩
      omega
  | not h _ ih =>
      obtain ⟨u, hu, rfl⟩ := Option.map_eq_some_iff.mp hv
      simp only [holdsAfter]
      rw [ih ht hu]
      simp
  | logic op h _ _ ihl ihr => exact Logic.holds_of_eval? hv (fun _ => ihl ht) (fun _ => ihr ht)
  | @past op hop window operand h _ ih =>
      simp only [rest] at hv
      split at hv
      case isFalse => cases hv
      case isTrue hrest =>
        cases hv
        simp only [holdsAfter, UnaryOp.reach_eq_zero (UnaryOp.lookAhead?_past hop window),
          Nat.sub_zero, UnaryTemporal.window, hop, Bool.false_eq_true, if_false]
        -- The window shows only instants before the trace.
        refine op.holds_idle fun s hs => ih ?_ hrest.2
        have := hs.1.1
        omega
  | future hop hb h _ _ =>
      simp [rest, hop] at hv

/-- The verdict with samples before the trace is the one on the trace alone from the sample
on where the formula settles. -/
theorem holdsAfter_iff_holds {f : Formula} (hf : f.Modal) {n k : ℕ} (hk : f.settling n = some k)
    {t : ℕ} (ht : k ≤ t) : f.holdsAfter trace n t ↔ f.holds trace t := by
  induction hf generalizing n k t with
  | «variable» v backend h => exact holdsAfter_variable v backend h n t
  | not h _ ih => exact not_congr (ih hk ht)
  | @logic op left right h _ _ ihl ihr =>
      simp only [settling, Option.bind_eq_bind, Option.bind_eq_some_iff, Option.pure_def,
        Option.some_inj] at hk
      obtain ⟨kl, hl, kr, hr, rfl⟩ := hk
      simp only [holdsAfter, holds]
      rw [ihl hl (by omega), ihr hr (by omega)]
  | @past op hop window operand h hoperand ih =>
      have hreach := UnaryOp.reach_eq_zero (UnaryOp.lookAhead?_past hop window)
      simp only [settling, hreach, Nat.sub_zero, hop, Bool.false_eq_true, if_false,
        Option.bind_eq_bind, Option.bind_eq_some_iff] at hk
      obtain ⟨ko, ho, hk⟩ := hk
      simp only [holdsAfter, holds, hreach, Nat.sub_zero, UnaryTemporal.window, hop,
        Bool.false_eq_true, if_false]
      split at hk
      case isTrue hcalm =>
        -- The operand has settled on the whole trace and does not count before it.
        refine op.holds_cut n (fun s _ => ih ho (by omega)) fun s _ hm hneg => ?_
        rcases hcalm.2 with rfl | hrest
        · omega
        · exact holdsAfter_iff_rest hoperand hneg hrest
      case isFalse =>
        -- The window has left the samples where the operand has not settled.
        obtain ⟨b, hb, hsum⟩ := Option.bind_eq_some_iff.mp hk
        cases hsum
        have hlate : ∀ s ∈ (Interval.ofOption window).behind t, (ko : ℤ) ≤ s := by
          intro s hs
          have := hs.2 b (Endpoint.offset?_eq_some_iff.mp hb)
          omega
        refine op.holds_cut n (fun s hs => ih ho (Int.ofNat_le.mp (hlate s hs)))
          fun s hs _ hneg => ?_
        have := hlate s hs
        omega
  | @future op hop i b hb operand h _ ih =>
      obtain ⟨past, -, ha⟩ := UnaryOp.lookAhead?_future hop hb
      have hreach : (UnaryOp.temporal op (some i)).reach = b.toNat :=
        UnaryOp.reach_of_lookAhead? ha
      simp only [settling, hreach, hop, if_true, Option.bind_eq_bind, Option.bind_eq_some_iff] at hk
      obtain ⟨ko, ho, hk⟩ := hk
      cases hk
      simp only [holdsAfter, holds, hreach, UnaryTemporal.window, hop, if_true]
      have hlate : ∀ s ∈ i.ahead t, (ko : ℤ) ≤ s := by
        intro s hs
        have := hs.1
        simp only [Interval.ofOption, Option.getD_some] at ht
        omega
      refine op.holds_cut _ (fun s hs => ih ho (Int.ofNat_le.mp (hlate s hs)))
        fun s hs _ hneg => ?_
      have := hlate s hs
      omega

/-- Pastification on traces that begin. After the horizon pass has found a horizon, the
pastified formula says after so many samples what the formula says now about the trace with
as many samples in front in which every variable is false. From the sample on where the
formula settles, that is what the formula says about the trace alone. -/
theorem holds_pastify_iff {f : Formula} (hf : f.Modal) {horizon : Offset}
    (hh : f.computeHorizon.value.horizon = some horizon) :
    ∃ past, f.computeHorizon.value.pastify = .ok past ∧ ∀ (trace : Recording) (t : ℕ),
      (past.value.holds trace (t + horizon.toNat) ↔ f.holdsAfter trace horizon.toNat t) ∧
      ∀ k, f.settling horizon.toNat = some k → k ≤ t →
        (f.holds trace t ↔ past.value.holds trace (t + horizon.toNat)) := by
  refine ⟨f.pastifyWithHorizon horizon, pastify_computeHorizon hh, fun trace t => ?_⟩
  rw [value_computeHorizon] at hh
  have hreach := ((f.horizon_annotate_eq_some_iff horizon).mp hh).2.le
  have hafter : (f.pastifyWithHorizon horizon).value.holds trace (t + horizon.toNat) ↔
      f.holdsAfter trace horizon.toNat t := by
    rw [value_pastifyWithHorizon, holds_pastifyWithin_iff hf hreach]
    simp
  refine ⟨hafter, fun k hk ht => ?_⟩
  calc f.holds trace t
      ↔ f.holdsAfter trace horizon.toNat t := (holdsAfter_iff_holds hf hk ht).symm
    _ ↔ (f.pastifyWithHorizon horizon).value.holds trace (t + horizon.toNat) := hafter.symm

/-- So far every request has been granted within three samples, and all has been ready for
two samples. -/
def grantedSoFar : Formula :=
  .logic .conjunction
    (.unaryTemporal .historically none
      (.logic .implication (.ofVariable (.named "req"))
        (.unaryTemporal .eventually (some (.upTo 3)) (.ofVariable (.named "gnt")))))
    (.unaryTemporal .historically (some (.upTo 2)) (.ofVariable (.named "ready")))

theorem holds_pastify_grantedSoFar :
    grantedSoFar.Modal ∧
    grantedSoFar.computeHorizon.value.horizon = some 3 ∧
    grantedSoFar.settling (3 : Offset).toNat = some 2 ∧
    ∃ past, grantedSoFar.computeHorizon.value.pastify = .ok past ∧
      ∀ (trace : Recording) (t : ℕ), 2 ≤ t →
        (grantedSoFar.holds trace t ↔ past.value.holds trace (t + (3 : Offset).toNat)) := by
  have hmodal : grantedSoFar.Modal :=
    .logic _ _
      (.past rfl _ _ (.logic _ _ (.variable _ _ _) (.future rfl rfl _ (.variable _ _ _))))
      (.past rfl _ _ (.variable _ _ _))
  have hhorizon : grantedSoFar.computeHorizon.value.horizon = some 3 := by decide
  have hsettling : grantedSoFar.settling (3 : Offset).toNat = some 2 := by decide
  obtain ⟨past, hpast, h⟩ := holds_pastify_iff hmodal hhorizon
  exact ⟨hmodal, hhorizon, hsettling, past, hpast, fun trace t => (h trace t).2 2 hsettling⟩

/-- The first signal has held so far, and the second one holds at the next sample. -/
def heldSoFar : Formula :=
  .logic .conjunction
    (.unaryTemporal .historically none (.ofVariable (.named "a")))
    (.unaryTemporal .eventually (some (.point 1)) (.ofVariable (.named "b")))

/-- On a trace where both signals hold throughout, the formula always holds, and its
pastified form never does: `historically` finds the sample before the trace. -/
theorem not_holds_pastify_heldSoFar :
    let trace : Recording := fun _ _ => True
    heldSoFar.Modal ∧
    heldSoFar.computeHorizon.value.horizon = some 1 ∧
    ∃ past, heldSoFar.computeHorizon.value.pastify = .ok past ∧
      ∀ t : ℕ, heldSoFar.holds trace t ∧ ¬ past.value.holds trace (t + (1 : Offset).toNat) := by
  intro trace
  have hmodal : heldSoFar.Modal :=
    .logic _ _ (.past rfl _ _ (.variable _ _ _)) (.future rfl rfl _ (.variable _ _ _))
  have hhorizon : heldSoFar.computeHorizon.value.horizon = some 1 := by decide
  refine ⟨hmodal, hhorizon, _, pastify_computeHorizon hhorizon, fun t => ⟨?_, ?_⟩⟩
  · refine ⟨fun s _ => trivial, t + 1, ⟨?_, fun b hb => ?_⟩, trivial⟩
    · exact_mod_cast le_rfl
    · cases hb
      exact_mod_cast le_rfl
  · rw [value_pastifyWithHorizon, holds_pastifyWithin_iff hmodal (by decide)]
    rintro ⟨hheld, -⟩
    have hbefore : (-1 : ℤ) ∈ Interval.behind (.ofOption none)
        ((t + (1 : Offset).toNat : ℕ) - (1 : Offset).toNat) := by
      refine ⟨?_, nofun⟩
      simp [Interval.ofOption, Interval.unbounded]
    obtain ⟨s, hs, -⟩ := hheld (-1) ⟨hbefore, by decide⟩
    omega

end Formula

end SignalLogic
