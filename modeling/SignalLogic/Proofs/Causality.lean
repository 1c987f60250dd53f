import SignalLogic.Proofs.Delay

/-!
# The horizon is enough future

A formula with a horizon reads no sample further ahead of an instant than its horizon:
two traces that agree so far give it the same value there. Every operator passes
agreement on from its operands, and loses as many samples of it as it reaches ahead.
-/

namespace SignalLogic

universe u

variable {L : Type u}

namespace Signal

/-- Two signals have the same values up to an instant. -/
def AgreeUpTo (t : ℤ) (x y : Signal L) : Prop :=
  ∀ s ≤ t, x s = y s

variable {t : ℤ} {x x' y y' : Signal L}

theorem AgreeUpTo.mono {s : ℤ} (h : AgreeUpTo t x y) (hst : s ≤ t) : AgreeUpTo s x y :=
  fun r hr => h r (hr.trans hst)

theorem AgreeUpTo.delay (h : AgreeUpTo t x y) (n : ℤ) :
    AgreeUpTo (t + n) (x.delay n) (y.delay n) :=
  fun s hs => h (s - n) (by omega)

variable [CompleteLattice L]

/-- A past window ends at the present at the latest. -/
theorem le_of_mem_behind {i : Interval} {s : ℤ} (hs : s ∈ i.behind t) : s ≤ t := by
  have := hs.1
  omega

/-- A finite window reads no sample beyond its upper end. -/
theorem AgreeUpTo.untilOver {i : Interval} {b : Offset} (hb : i.upper = .finite b)
    (hx : AgreeUpTo (t + b.toNat) x x') (hy : AgreeUpTo (t + b.toNat) y y') :
    AgreeUpTo t (untilOver i x y) (untilOver i x' y') := by
  intro s hs
  refine biSup_congr fun r hr => ?_
  have hrt : r ≤ t + b.toNat := (hr.2 b hb).trans (by omega)
  have hheld : ⨅ q ∈ Set.Ico s r, x q = ⨅ q ∈ Set.Ico s r, x' q :=
    biInf_congr fun q hq => hx q (hq.2.le.trans hrt)
  rw [hy r hrt, hheld]

theorem AgreeUpTo.sinceOver (i : Interval) (hx : AgreeUpTo t x x') (hy : AgreeUpTo t y y') :
    AgreeUpTo t (sinceOver i x y) (sinceOver i x' y') := by
  intro s hs
  refine biSup_congr fun r hr => ?_
  have hheld : ⨅ q ∈ Set.Ioc r s, x q = ⨅ q ∈ Set.Ioc r s, x' q :=
    biInf_congr fun q hq => hx q (hq.2.trans hs)
  rw [hy r ((le_of_mem_behind hr).trans hs), hheld]

/-- Window operators lose agreement only as far as a window ahead reaches. -/
theorem AgreeUpTo.over {op : UnaryTemporal} {i : Interval} {n : ℕ}
    (hn : op.isFuture = true → ∃ b, i.upper = .finite b ∧ b.toNat ≤ n)
    (h : AgreeUpTo (t + n) x y) : AgreeUpTo t (op.over i x) (op.over i y) := by
  intro s hs
  have hbehind : ∀ r ∈ i.behind s, r ≤ t + n := by
    intro r hr
    have := le_of_mem_behind hr
    omega
  have hahead : op.isFuture = true → ∀ r ∈ i.ahead s, r ≤ t + n := by
    intro hf r hr
    obtain ⟨b, hb, hbn⟩ := hn hf
    have := hr.2 b hb
    omega
  cases op with
  | once => exact biSup_congr fun r hr => h r (hbehind r hr)
  | historically => exact biInf_congr fun r hr => h r (hbehind r hr)
  | eventually => exact biSup_congr fun r hr => h r (hahead rfl r hr)
  | always => exact biInf_congr fun r hr => h r (hahead rfl r hr)

end Signal

open Signal

/-- An interpretation whose operators on signals read no future: an edge is told by the
current and the previous sample, and `precedes` without a finite upper bound by the samples
up to the present. -/
structure CausalInterpretation (L : Type u) extends Interpretation L where
  edge_congr (op : Edge) (t : ℤ) (x y : Signal L) :
    x (t - 1) = y (t - 1) → x t = y t → edge op x t = edge op y t
  precedes_congr (window : Option Interval) (t : ℤ) (x x' y y' : Signal L) :
    AgreeUpTo t x x' → AgreeUpTo t y y' → precedes window x y t = precedes window x' y' t

/-- The window of an operator with a finite upper bound ends there. -/
theorem Interval.upper_ofOption {window : Option Interval} {b : Offset}
    (h : window.bind (·.upper.offset?) = some b) : (ofOption window).upper = .finite b := by
  obtain ⟨i, rfl, hi⟩ := Option.bind_eq_some_iff.mp h
  exact Endpoint.offset?_eq_some_iff.mp hi

namespace CausalInterpretation

variable [CompleteLattice L] (I : CausalInterpretation L) {t : ℤ} {x x' y y' : Signal L}

/-- A unary operator that is not open needs agreement as far as it reaches. -/
theorem unary_agreeUpTo {op : UnaryOp}
    (hopen : op.operator.isFuture = true → op.reach?.isSome = true)
    (h : AgreeUpTo (t + op.reach) x y) : AgreeUpTo t (I.unary op x) (I.unary op y) := by
  cases op with
  | abs b => exact fun s hs => congrArg I.abs (h s (by omega))
  | not => exact fun s hs => congrArg I.not (h s (by omega))
  | edge op => exact fun s hs => I.edge_congr op s x y (h _ (by omega)) (h s (by omega))
  | temporal op window =>
      refine AgreeUpTo.over (fun hf => ?_) h
      obtain ⟨b, hb⟩ := Option.isSome_iff_exists.mp (hopen hf)
      have hwindow : window.bind (·.upper.offset?) = some b := by
        simpa [UnaryOp.reach?, UnaryOp.operator, Operator.isFuture, UnaryOp.window?, hf] using hb
      exact ⟨b, Interval.upper_ofOption hwindow, by simp [UnaryOp.reach, hb]⟩

/-- A binary operator that is not open needs agreement as far as it reaches. -/
theorem binary_agreeUpTo {op : BinaryOp}
    (hopen : op.operator.isFuture = true → op.reach?.isSome = true)
    (hx : AgreeUpTo (t + op.reach) x x') (hy : AgreeUpTo (t + op.reach) y y') :
    AgreeUpTo t (I.binary op x y) (I.binary op x' y') := by
  have hx₀ : AgreeUpTo t x x' := hx.mono (by omega)
  have hy₀ : AgreeUpTo t y y' := hy.mono (by omega)
  cases op with
  | arithmetic op b => exact fun s hs => congrArg₂ (I.arithmetic op) (hx₀ s hs) (hy₀ s hs)
  | comparison op b => exact fun s hs => congrArg₂ (I.comparison op) (hx₀ s hs) (hy₀ s hs)
  | logic op => exact fun s hs => congrArg₂ (I.logic op) (hx₀ s hs) (hy₀ s hs)
  | temporal op window =>
      cases op with
      | since => exact AgreeUpTo.sinceOver (Interval.ofOption window) hx₀ hy₀
      | «until» =>
          obtain ⟨b, hb⟩ := Option.isSome_iff_exists.mp (hopen rfl)
          have hreach : (BinaryOp.temporal .until window).reach = b.toNat := by
            simp [BinaryOp.reach, hb]
          rw [hreach] at hx hy
          exact AgreeUpTo.untilOver (Interval.upper_ofOption hb) hx hy
      | precedes =>
          simp only [Interpretation.binary]
          split
          case h_1 b hb =>
            -- The window is read from `b` samples ago, so its end is the present.
            have hwindow : AgreeUpTo (t - b.toNat) (untilOver (.ofOption window) x y)
                (untilOver (.ofOption window) x' y') :=
              AgreeUpTo.untilOver (Interval.upper_ofOption hb)
                (hx₀.mono (by omega)) (hy₀.mono (by omega))
            exact (hwindow.delay b.toNat).mono (by omega)
          case h_2 =>
            exact fun s hs => I.precedes_congr window s x x' y y' (hx₀.mono hs) (hy₀.mono hs)

/-- Traces that agree as far as a formula reaches beyond an instant give it the same
values up to that instant. -/
theorem meaning_agreeUpTo {f : Formula} (hf : f.Closed) {trace trace' : Variable → Signal L}
    (h : ∀ v, AgreeUpTo (t + f.reach) (trace v) (trace' v)) :
    AgreeUpTo t (I.meaning trace f) (I.meaning trace' f) := by
  induction f generalizing t with
  | leaf op _ =>
      cases op with
      | constant value backend => exact fun s _ => rfl
      | «variable» v backend => exact (h v).mono (by omega)
  | unary op operand _ ih =>
      rw [Formula.closed_unary_iff, Formula.isOpenFuture_unary] at hf
      have hoperand := ih hf.2 (t := t + op.reach) fun v =>
        (h v).mono (by simp only [Formula.reach]; omega)
      exact I.unary_agreeUpTo hf.1 hoperand
  | binary op left right _ ihl ihr =>
      rw [Formula.closed_binary_iff, Formula.isOpenFuture_binary] at hf
      have hleft := ihl hf.2.1 (t := t + op.reach) fun v =>
        (h v).mono (by simp only [Formula.reach]; omega)
      have hright := ihr hf.2.2 (t := t + op.reach) fun v =>
        (h v).mono (by simp only [Formula.reach]; omega)
      exact I.binary_agreeUpTo hf.1 hleft hright

/-- The horizon is enough future: where the horizon pass stores a horizon, two traces that
agree on all samples up to so many after an instant give the formula at that node the same
value at the instant. -/
theorem meaning_eq_of_agree_upTo_horizon (f : Formula) {v : Formula}
    (hv : v ∈ f.computeHorizon.value.nodes) {k : Offset} (hk : v.horizon = some k) (t : ℤ)
    {trace trace' : Variable → Signal L}
    (h : ∀ x, ∀ s ≤ t + k.toNat, trace x s = trace' x s) :
    I.meaning trace v t = I.meaning trace' v t := by
  rw [Formula.value_computeHorizon, Formula.value_annotate, Formula.nodes_eq_subformulas,
    Formula.subformulas_mapHorizon] at hv
  obtain ⟨g, -, rfl⟩ := List.mem_map.mp hv
  rw [Formula.horizon_mapHorizon] at hk
  obtain ⟨hclosed, hreach⟩ := (g.demand_eq_some_iff k).mp hk
  simp only [Interpretation.meaning_mapHorizon]
  exact I.meaning_agreeUpTo hclosed (fun x => hreach ▸ h x) t le_rfl

/-- Signals that hold or fail at each instant are told without the future. -/
def boolean : CausalInterpretation Prop where
  toInterpretation := InvariantInterpretation.boolean.toInterpretation
  edge_congr op t x y hprevious hcurrent := by
    cases op <;> simp [InvariantInterpretation.boolean, hprevious, hcurrent]
  precedes_congr window t x x' y y' hx hy := by
    have hx (k j : ℕ) : x (t - k - j) = x' (t - k - j) := hx _ (by omega)
    have hy (k : ℕ) : y (t - k) = y' (t - k) := hy _ (by omega)
    simp [InvariantInterpretation.boolean, hx, hy]

/-- The start of a request two samples from now, as the horizon pass leaves it in a
larger formula. -/
def awaitedRequest : Formula :=
  .unary (.temporal .eventually (some (.point 2)))
    (.unary (.edge .rise) (.leaf (.variable (.named "req") .reference) (some 0)) (some 0))
    (some 2)

theorem meaning_eq_awaitedRequest :
    let trace : Variable → Signal Prop := fun _ s => s ≤ 2
    let trace' : Variable → Signal Prop := fun _ s => s ≤ 2 ∨ 4 ≤ s
    awaitedRequest ∈ InvariantInterpretation.heldGrant.computeHorizon.value.nodes ∧
    awaitedRequest.horizon = some 2 ∧
    (∀ x, ∀ s ≤ 1 + ((2 : Offset).toNat : ℤ), trace x s = trace' x s) ∧
    boolean.meaning trace awaitedRequest 1 = boolean.meaning trace' awaitedRequest 1 := by
  intro trace trace'
  have hv : awaitedRequest ∈ InvariantInterpretation.heldGrant.computeHorizon.value.nodes := by
    rw [Formula.nodes_eq_subformulas]
    exact List.mem_cons_of_mem _ (List.mem_cons_self ..)
  have hagree : ∀ x, ∀ s ≤ 1 + ((2 : Offset).toNat : ℤ), trace x s = trace' x s := by
    intro x s hs
    have hs : s ≤ 3 := hs
    simp only [trace, trace', eq_iff_iff]
    omega
  exact ⟨hv, rfl, hagree,
    meaning_eq_of_agree_upTo_horizon boolean InvariantInterpretation.heldGrant hv rfl 1 hagree⟩

end CausalInterpretation

end SignalLogic
