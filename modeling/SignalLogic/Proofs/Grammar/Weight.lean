import SignalLogic.Formula.Equality
import SignalLogic.Formula.Name
import SignalLogic.Proofs.Grammar.Operators
import SignalLogic.Proofs.Grammar.Readable

/-!
# Weights of texts

Every character has a weight, so that all tokens of an operator weigh the same and
blanks, parentheses and finite numbers weigh nothing. Then a derived text weighs as much
as the operators and variables of its formula do, however it is spelled. A printed
constant that is not finite weighs something, so its text stands for no equal formula.
-/

namespace SignalLogic

namespace Grammar

variable {s m r : List Char} {ℓ : Level} {f g : Formula}

/-- The weight of a character. -/
def charWeight (c : Char) : Nat :=
  if c = 'n' ∨ c = '!' then 2 else if c = '&' ∨ c = 'N' then 1 else 0

/-- The weight of a text. -/
def weight (s : List Char) : Nat :=
  (s.map charWeight).sum

@[simp] theorem weight_nil : weight [] = 0 := rfl

@[simp] theorem weight_cons (c : Char) (s : List Char) :
    weight (c :: s) = charWeight c + weight s := by
  simp [weight]

@[simp] theorem weight_append (s t : List Char) : weight (s ++ t) = weight s + weight t := by
  simp [weight]

theorem Blanks.weight_eq (h : Blanks s r) : weight s = weight r := by
  induction h with
  | refl => rfl
  | skip hc _ ih =>
      rw [isWhitespace_iff] at hc
      have hblank : ∀ c : Char, c.toNat = 32 ∨ c.toNat = 9 ∨ c.toNat = 13 ∨ c.toNat = 10 →
          charWeight c = 0 := by
        intro c hc
        simp only [charWeight, ← Char.toNat_inj, Char.reduceToNat]
        grind
      rw [weight_cons, hblank _ hc, ih, Nat.zero_add]

/-- Blanks around a lexeme add nothing to its weight. -/
theorem Spaced.weight_eq {lexeme : List Char → List Char → Prop} {n : Nat}
    (hl : ∀ {s r}, lexeme s r → weight s = n + weight r) (h : Spaced lexeme s r) :
    weight s = n + weight r := by
  obtain ⟨s', r', hs, hlexeme, hr⟩ := h
  rw [hs.weight_eq, hl hlexeme, hr.weight_eq]

theorem Token.Reads.weight_eq {t : Token} (h : t.Reads s r) :
    weight s = weight t.chars + weight r := by
  rw [h.eq_append, weight_append]

theorem Digits.weight_eq {ds : List Char} (h : Digits ds) : weight ds = 0 := by
  have hdigit : ∀ c ∈ ds, charWeight c = 0 := by
    intro c hc
    have hrange := isDigit_iff.mp (h.2 c hc)
    simp only [charWeight, ← Char.toNat_inj, Char.reduceToNat]
    grind
  have hmap : ds.map charWeight = ds.map fun _ => 0 := List.map_congr_left hdigit
  simp [weight, hmap]

theorem Magnitude.weight_eq {d : Decimal} (h : Magnitude d s r) : weight s = weight r := by
  have hpoint : charWeight '.' = 0 := by decide
  cases h with
  | whole h => simp [h.weight_eq]
  | point h hf => simp [h.weight_eq, hf.weight_eq, hpoint]

theorem Number.weight_eq {x : Value} (h : Number x s r) : weight s = 0 + weight r := by
  have hminus : charWeight '-' = 0 := by decide
  cases h with
  | positive h => simp [h.weight_eq]
  | negative h => simp [h.weight_eq, hminus]

theorem Reference.weight_eq {v : Variable} (h : Reference v s r) :
    weight s = weight v.chars + weight r := by
  rw [(reference_iff.mp h).2.1, weight_append]

theorem Bound.weight_eq {e : Endpoint} (h : Bound e s r) :
    weight s = weight e.chars + weight r := by
  cases h with
  | @finite n _ _ hds _ =>
      have hn : Digits n.chars :=
        ⟨Nat.toDigits_ne_nil, fun _ hc => Nat.isDigit_of_mem_toDigits (by decide) (by decide) hc⟩
      simp [hds.weight_eq, Endpoint.chars, hn.weight_eq]
  | infinite => exact weight_append _ _

theorem Window.weight_eq {i : Interval} (h : Window i s r) :
    weight s = weight i.chars + weight r := by
  obtain ⟨_, _, _, _, hopen, hlower, hcomma, hupper, hclose⟩ := h
  have hlower := hlower.weight_eq Bound.weight_eq
  have hupper := hupper.weight_eq Bound.weight_eq
  have hopen := hopen.weight_eq Token.Reads.weight_eq
  have hcomma := hcomma.weight_eq Token.Reads.weight_eq
  have hclose := hclose.weight_eq Token.Reads.weight_eq
  have hsymbols : weight (Token.symbol "[").chars = 0 ∧ weight (Token.symbol ",").chars = 0 ∧
      weight (Token.symbol "]").chars = 0 := by decide
  have htext : weight i.chars =
      charWeight '[' + (weight (Endpoint.finite i.lower).chars +
        (charWeight ',' + (weight i.upper.chars + charWeight ']'))) := by
    simp [Interval.chars, Endpoint.chars]
  have hchars : charWeight '[' = 0 ∧ charWeight ',' = 0 ∧ charWeight ']' = 0 := by decide
  omega

/-- All tokens of an operator weigh as much as its label. -/
theorem Level.weight_of_mem {t : Token} {op : BinaryOp} (h : (t, op) ∈ ℓ.operators) :
    weight t.chars = weight op.operator.label.toList := by
  have htable : ∀ entry ∈ ℓ.operators,
      weight entry.1.chars = weight entry.2.operator.label.toList := by
    cases ℓ <;> decide
  exact htable _ h

theorem weight_of_mem_leading {t : Token} {op : UnaryOp} (h : (t, op) ∈ leadingOperators) :
    weight t.chars = weight op.operator.label.toList := by
  have htable : ∀ entry ∈ leadingOperators,
      weight entry.1.chars = weight entry.2.operator.label.toList := by
    decide
  exact htable _ h

theorem Between.weight_eq {op : BinaryOp} (h : Between ℓ op s r) :
    weight s = weight op.chars + weight r := by
  cases h with
  | plain hmem ht =>
      rw [ht.weight_eq Token.Reads.weight_eq, Level.weight_of_mem hmem, BinaryOp.chars,
        Level.window?_of_mem hmem]
      simp [windowChars]
  | windowed hmem ht hi =>
      rw [ht.weight_eq Token.Reads.weight_eq, Level.weight_of_mem hmem, hi.weight_eq,
        BinaryOp.chars, weight_append, Nat.add_assoc]
      rfl

theorem Leading.weight_eq {op : UnaryOp} (h : Leading op s r) :
    weight s = weight op.chars + weight r := by
  cases h with
  | plain hmem ht =>
      rw [ht.weight_eq Token.Reads.weight_eq, weight_of_mem_leading hmem, UnaryOp.chars,
        window?_of_mem_leading hmem]
      simp [windowChars]
  | windowed hmem ht hi =>
      rw [ht.weight_eq Token.Reads.weight_eq, weight_of_mem_leading hmem, hi.weight_eq,
        UnaryOp.chars, weight_append, Nat.add_assoc]
      rfl

end Grammar

namespace Formula

open Grammar

variable {f g : Formula}

/-- The weight of the operators and variables of a formula. -/
def operatorWeight : Formula → Nat
  | leaf (.constant _ _) _ => 0
  | leaf (.variable v _) _ => weight v.chars
  | unary op f _ => weight op.chars + f.operatorWeight
  | binary op f g _ => f.operatorWeight + weight op.chars + g.operatorWeight

/-- The weight of the constants of a formula. -/
def constantWeight : Formula → Nat
  | leaf (.constant x _) _ => weight x.chars
  | leaf (.variable _ _) _ => 0
  | unary _ f _ => f.constantWeight
  | binary _ f g _ => f.constantWeight + g.constantWeight

theorem weight_parenthesized (s : List Char) : weight (parenthesized s) = weight s := by
  have hchars : charWeight '(' = 0 ∧ charWeight ')' = 0 := by decide
  simp [parenthesized, hchars]

/-- The canonical text weighs what its parts do. -/
theorem weight_chars (f : Formula) : weight f.chars = f.operatorWeight + f.constantWeight := by
  induction f with
  | leaf op _ =>
      cases op with
      | constant x _ => simp [chars, LeafOp.chars, operatorWeight, constantWeight]
      | «variable» v _ => simp [chars, LeafOp.chars, operatorWeight, constantWeight]
  | unary op f _ ih =>
      simp only [chars, weight_append, weight_parenthesized, operatorWeight, constantWeight, ih]
      omega
  | binary op f g _ ihf ihg =>
      simp only [chars, weight_append, weight_parenthesized, operatorWeight, constantWeight, ihf,
        ihg]
      omega

/-- A constant without weight is finite. -/
theorem isFinite_of_weight {x : Value} (h : weight x.chars = 0) :
    Binary64.isFinite x = true := by
  have hwords : weight ['N', 'a', 'N'] = 2 ∧ weight ['i', 'n', 'f'] = 2 := by decide
  refine decide_eq_true ?_
  by_contra hfinite
  by_cases hnan : Binary64.infinity < Binary64.code x
  · rw [Value.chars, if_pos hnan] at h
    omega
  · rw [Value.chars, if_neg hnan, Value.magnitudeChars, if_neg hfinite] at h
    cases hsign : Binary64.isNegative x with
    | false =>
        rw [hsign, if_neg Bool.false_ne_true] at h
        omega
    | true =>
        rw [hsign, if_pos rfl, weight_cons] at h
        omega

theorem finite_of_constantWeight (h : f.constantWeight = 0) :
    f.All fun g => ∀ x, g.operator = .constant x → Binary64.isFinite x = true := by
  induction f with
  | leaf op _ =>
      rw [all_leaf_iff]
      rintro x hx
      cases op with
      | constant y _ =>
          cases hx
          exact isFinite_of_weight h
      | «variable» v _ => cases hx
  | unary op f _ ih =>
      rw [all_unary_iff]
      refine ⟨?_, ih h⟩
      cases op <;> rintro x ⟨⟩
  | binary op f g _ ihf ihg =>
      rw [all_binary_iff]
      have hsum : f.constantWeight + g.constantWeight = 0 := h
      refine ⟨?_, ihf (by omega), ihg (by omega)⟩
      cases op <;> rintro x ⟨⟩

/-- Equal formulas have operators and variables of the same weight. -/
theorem operatorWeight_congr (h : (g == f) = true) : g.operatorWeight = f.operatorWeight := by
  induction f generalizing g with
  | leaf op _ =>
      cases g with
      | leaf op' _ =>
          cases op with
          | constant x _ =>
              obtain ⟨y, rfl⟩ := LeafOp.eq_constant_of_beq h
              rfl
          | «variable» v _ =>
              obtain rfl := LeafOp.eq_variable_of_beq h
              rfl
      | unary | binary => cases h
  | unary op f _ ih =>
      cases g with
      | unary op' g _ =>
          rw [unary_beq_unary, Bool.and_eq_true, beq_iff_eq] at h
          rw [operatorWeight, operatorWeight, h.1, ih h.2]
      | leaf | binary => cases h
  | binary op f k _ ihf ihk =>
      cases g with
      | binary op' g l _ =>
          rw [binary_beq_binary, Bool.and_eq_true, Bool.and_eq_true, beq_iff_eq] at h
          rw [operatorWeight, operatorWeight, h.1.1, ihf h.1.2, ihk h.2]
      | leaf | unary => cases h

end Formula

namespace Grammar

variable {s r : List Char} {f : Formula}

/-- The weight that a chain has when it goes on. -/
def Phrase.weight : Phrase → Nat
  | .whole _ => 0
  | .further _ sofar => sofar.operatorWeight

/-- A derived text weighs as much as the operators and variables of its formula. -/
theorem Derives.weight_eq {phrase : Phrase} (h : Derives phrase f s r) :
    phrase.weight + weight s = f.operatorWeight + weight r := by
  have hparentheses : weight (Token.symbol "(").chars = 0 ∧
      weight (Token.symbol ")").chars = 0 := by decide
  induction h with
  | number h => simp [Phrase.weight, Formula.ofValue, Formula.operatorWeight,
      h.weight_eq Number.weight_eq]
  | reference h => simp [Phrase.weight, Formula.ofVariable, Formula.operatorWeight,
      h.weight_eq Reference.weight_eq]
  | parentheses ho _ hc ih =>
      have hopen := ho.weight_eq Token.Reads.weight_eq
      have hclose := hc.weight_eq Token.Reads.weight_eq
      simp only [Phrase.weight] at ih ⊢
      omega
  | abs ha ho _ hc ih =>
      have habs := ha.weight_eq Token.Reads.weight_eq
      have hopen := ho.weight_eq Token.Reads.weight_eq
      have hclose := hc.weight_eq Token.Reads.weight_eq
      have hword : weight (Token.word "abs").chars = weight (UnaryOp.abs .reference).chars := by
        decide
      simp only [Phrase.weight, Formula.abs, Formula.operatorWeight] at ih ⊢
      omega
  | chain _ _ _ ihf ihg =>
      simp only [Phrase.weight] at ihf ihg ⊢
      omega
  | finish => rfl
  | extend ho _ _ ihg ihk =>
      have hoperator := ho.weight_eq
      simp only [Phrase.weight, Formula.operatorWeight] at ihg ihk ⊢
      omega
  | comparison _ ho _ ihf ihg | implication _ ho _ ihf ihg =>
      have hoperator := ho.weight_eq
      simp only [Phrase.weight, Formula.operatorWeight] at ihf ihg ⊢
      omega
  | leading ho _ ih =>
      have hoperator := ho.weight_eq
      simp only [Phrase.weight, Formula.operatorWeight] at ih ⊢
      omega
  | tighter _ _ ih => exact ih

end Grammar

end SignalLogic
