import SignalLogic.Formula.Equality
import SignalLogic.Formula.Name
import SignalLogic.Proofs.Double
import SignalLogic.Proofs.Grammar.Follow
import SignalLogic.Proofs.Grammar.Readable

/-!
# Printed texts are derived

The canonical text of a formula that keeps to the grammar's variables, to finite
constants and to the reference backend is derived by the grammar as the formula itself.
Every part of the text is first shown to be a lexeme.
-/

namespace SignalLogic.Decimal

/-- A number that fits is filled up to the whole width. -/
theorem length_padded {width n : Nat} (h : n < 10 ^ width) (hw : 0 < width) :
    (padded width n).length = width := by
  have : (Nat.toDigits 10 n).length ≤ width :=
    (Nat.length_toDigits_le_iff (by decide) hw).2 h
  simp [padded]
  omega

/-- Reading goes on over filled-up digits as over any others. -/
theorem ofDigitChars_padded (width n init : Nat) (h : n < 10 ^ width) (hw : 0 < width) :
    Nat.ofDigitChars 10 (padded width n) init = 10 ^ width * init + n := by
  rw [Nat.ofDigitChars_eq_ofDigitChars_zero, length_padded h hw]
  simp [padded, Nat.ofDigitChars_append, Nat.ofDigitChars_replicate_zero]

end SignalLogic.Decimal

namespace SignalLogic.Grammar

variable {s m r : List Char} {ℓ : Level} {f g : Formula}

theorem digits_toDigits (n : Nat) : Digits (Nat.toDigits 10 n) :=
  ⟨Nat.toDigits_ne_nil, fun _ hc => Nat.isDigit_of_mem_toDigits (by decide) (by decide) hc⟩

theorem digits_padded (width n : Nat) : Digits (Decimal.padded width n) := by
  obtain ⟨hne, hdigits⟩ := digits_toDigits n
  refine ⟨List.append_ne_nil_of_right_ne_nil _ hne, fun c hc => ?_⟩
  rcases List.mem_append.mp hc with hzero | hdigit
  · rw [List.eq_of_mem_replicate hzero]
    rfl
  · exact hdigits c hdigit

/-- A decimal is written as itself. -/
theorem magnitude_chars (d : Decimal) : Magnitude d (d.chars ++ r) r := by
  obtain ⟨units, places⟩ := d
  simp only [Decimal.chars, Nat.pow_eq]
  split
  case isTrue hplaces =>
    subst hplaces
    have hwhole : Decimal.ofDigits (Nat.toDigits 10 (units / 10 ^ 0)) [] = ⟨units, 0⟩ := by
      simp [Decimal.ofDigits, Nat.ofDigitChars_ten_toDigits]
    exact hwhole ▸ .whole (digits_toDigits _)
  case isFalse hplaces =>
    have hpos : 0 < places := Nat.pos_of_ne_zero hplaces
    have hlt : units % 10 ^ places < 10 ^ places := Nat.mod_lt _ (Nat.pow_pos (by decide))
    have hpoint : Decimal.ofDigits (Nat.toDigits 10 (units / 10 ^ places))
        (Decimal.padded places (units % 10 ^ places)) = ⟨units, places⟩ := by
      rw [Decimal.ofDigits, Nat.ofDigitChars_append, Nat.ofDigitChars_ten_toDigits,
        Decimal.ofDigitChars_padded _ _ _ hlt hpos, Decimal.length_padded hlt hpos,
        Nat.div_add_mod]
    rw [List.append_assoc, List.cons_append]
    exact hpoint ▸ .point (digits_toDigits _) (digits_padded _ _)

/-- A finite constant is read back as the same double. -/
theorem number_chars {x : Value} (hx : Binary64.isFinite x = true) :
    Number x (x.chars ++ r) r := by
  have hfinite : Binary64.code x < Binary64.infinity := of_decide_eq_true hx
  have hread : Value.ofDecimal (Binary64.isNegative x) (Decimal.shortest (Binary64.code x)) =
      x := by
    rw [Value.ofDecimal, Decimal.nearest_shortest hfinite, Binary64.ofCode_code]
  have htext : x.chars = if Binary64.isNegative x then
      '-' :: (Decimal.shortest (Binary64.code x)).chars
      else (Decimal.shortest (Binary64.code x)).chars := by
    rw [Value.chars, if_neg (Nat.not_lt.mpr hfinite.le), Value.magnitudeChars, if_pos hfinite]
  cases hsign : Binary64.isNegative x with
  | false =>
      have hnumber := Number.positive (magnitude_chars (r := r) (Decimal.shortest (Binary64.code x)))
      rw [hsign] at hread
      rw [hsign, if_neg Bool.false_ne_true] at htext
      rwa [hread, ← htext] at hnumber
  | true =>
      have hnumber := Number.negative (magnitude_chars (r := r) (Decimal.shortest (Binary64.code x)))
      rw [hsign] at hread
      rw [hsign, if_pos rfl] at htext
      rwa [hread, ← List.cons_append, ← htext] at hnumber

theorem spaced_of_reads {lexeme : List Char → List Char → Prop} (h : lexeme s r) :
    Spaced lexeme s r :=
  ⟨s, r, .refl, h, .refl⟩

theorem bound_chars (e : Endpoint) : Bound e (e.chars ++ r) r := by
  cases e with
  | finite n => exact .finite (digits_toDigits _) Nat.ofDigitChars_ten_toDigits
  | infinite => exact .infinite

theorem window_chars (i : Interval) : Window i (i.chars ++ r) r := by
  have htext : i.chars ++ r =
      '[' :: ((Endpoint.finite i.lower).chars ++ ',' :: (i.upper.chars ++ ']' :: r)) := by
    simp [Interval.chars, Endpoint.chars]
  rw [htext]
  exact ⟨_, _, _, _, spaced_of_reads rfl, spaced_of_reads (bound_chars _), spaced_of_reads rfl,
    spaced_of_reads (bound_chars _), spaced_of_reads rfl⟩

/-- A phrase of the next level is a phrase of the level. -/
theorem Derives.of_next (h : Derives (.whole ℓ.next) f s r) : Derives (.whole ℓ) f s r := by
  cases ℓ with
  | atom => exact h
  | implication | unary | relational => exact .tighter (by simp) h
  | formula | disjunction | conjunction | binaryTemporal | additive | multiplicative =>
      exact .chain rfl h .finish

theorem Level.rank_injective {ℓ' : Level} (h : ℓ'.rank = ℓ.rank) : ℓ' = ℓ := by
  cases ℓ' <;> cases ℓ <;> first | rfl | cases h

/-- A phrase of a level is a phrase of every looser level. -/
theorem Derives.loosen {ℓ' : Level} (hle : ℓ'.rank ≤ ℓ.rank) (h : Derives (.whole ℓ) f s r) :
    Derives (.whole ℓ') f s r := by
  -- By induction on the number of levels in between.
  generalize hn : ℓ.rank - ℓ'.rank = n
  induction n generalizing ℓ' with
  | zero => exact Level.rank_injective (Nat.le_antisymm (by omega) hle) ▸ h
  | succ n ih =>
      have hnext : ℓ'.next.rank = ℓ'.rank + 1 := by
        have hatom : ℓ.rank ≤ Level.atom.rank := by cases ℓ <;> decide
        cases ℓ' with
        | atom => omega
        | _ => rfl
      exact (ih (by omega) (by omega)).of_next

theorem wordEnd_nil : WordEnd [] := nofun

theorem wordEnd_cons {c : Char} {t : List Char} (h : isSegmentTail c = false) :
    WordEnd (c :: t) := by
  rintro d u ⟨⟩
  exact h

/-- An operand is printed in parentheses. -/
theorem derives_parenthesized
    (h : ∀ r, WordEnd r → Derives (.whole .formula) f (s ++ r) r) (r : List Char) :
    Derives (.whole .atom) f (parenthesized s ++ r) r := by
  have hinside := h (')' :: r) (wordEnd_cons rfl)
  have htext : parenthesized s ++ r = '(' :: (s ++ ')' :: r) := by simp [parenthesized]
  rw [htext]
  exact .parentheses (spaced_of_reads rfl) hinside (spaced_of_reads rfl)

/-- No word goes on before the operand of an operator, with a window or without. -/
theorem wordEnd_windowChars (w : Option Interval) (u : List Char) :
    WordEnd (windowChars w ++ (parenthesized u ++ r)) := by
  cases w with
  | none => exact wordEnd_cons rfl
  | some i => exact wordEnd_cons rfl

theorem Token.reads_chars {t : Token} (hm : WordEnd m) : t.Reads (t.chars ++ m) m := by
  cases t with
  | symbol text => rfl
  | word text => exact ⟨rfl, hm⟩

/-- Every operator between operands has its canonical token in the table of a level. -/
theorem exists_token_between (op : BinaryOp) (hop : op.backend? ≠ some .native) :
    ∃ ℓ : Level, ∃ t op', (t, op') ∈ ℓ.operators ∧ t.chars = op.operator.label.toList ∧
      (op' = op ∨ ∃ o i, op' = .temporal o none ∧ op = .temporal o (some i)) := by
  cases op with
  | arithmetic op backend =>
      obtain rfl : backend = .reference := by cases backend <;> simp_all [BinaryOp.backend?]
      cases op with
      | addition => exact ⟨.additive, .symbol "+", _, by decide, rfl, .inl rfl⟩
      | subtraction => exact ⟨.additive, .symbol "-", _, by decide, rfl, .inl rfl⟩
      | multiplication => exact ⟨.multiplicative, .symbol "*", _, by decide, rfl, .inl rfl⟩
      | division => exact ⟨.multiplicative, .symbol "/", _, by decide, rfl, .inl rfl⟩
  | comparison op backend =>
      obtain rfl : backend = .reference := by cases backend <;> simp_all [BinaryOp.backend?]
      refine ⟨.relational, .symbol op.token, .comparison op .reference, ?_, rfl, .inl rfl⟩
      cases op <;> decide
  | logic op =>
      cases op with
      | conjunction => exact ⟨.conjunction, .word "and", _, by decide, rfl, .inl rfl⟩
      | disjunction => exact ⟨.disjunction, .word "or", _, by decide, rfl, .inl rfl⟩
      | implication => exact ⟨.implication, .symbol "->", _, by decide, rfl, .inl rfl⟩
      | equivalence => exact ⟨.formula, .symbol "<->", _, by decide, rfl, .inl rfl⟩
      | exclusion => exact ⟨.formula, .word "xor", _, by decide, rfl, .inl rfl⟩
  | temporal op w =>
      refine ⟨.binaryTemporal, .word op.token, .temporal op none, ?_, rfl, ?_⟩
      · cases op <;> decide
      · cases w with
        | none => exact .inl rfl
        | some i => exact .inr ⟨op, i, rfl, rfl⟩

/-- So has every operator before an operand but the absolute value. -/
theorem exists_token_leading (op : UnaryOp) (hop : op.backend? = none) :
    ∃ t op', (t, op') ∈ leadingOperators ∧ t.chars = op.operator.label.toList ∧
      (op' = op ∨ ∃ o i, op' = .temporal o none ∧ op = .temporal o (some i)) := by
  cases op with
  | abs backend => cases hop
  | not => exact ⟨.word "not", _, by decide, rfl, .inl rfl⟩
  | edge op =>
      refine ⟨.word op.token, .edge op, ?_, rfl, .inl rfl⟩
      cases op <;> decide
  | temporal op w =>
      refine ⟨.word op.token, .temporal op none, ?_, rfl, ?_⟩
      · cases op <;> decide
      · cases w with
        | none => exact .inl rfl
        | some i => exact .inr ⟨op, i, rfl, rfl⟩

/-- A printed operator stands between printed operands. -/
theorem exists_between {op : BinaryOp} (hop : op.backend? ≠ some .native) :
    ∃ ℓ : Level, ∀ t, Between ℓ op (op.chars ++ (parenthesized t ++ r)) (parenthesized t ++ r) := by
  obtain ⟨ℓ, t, op', hmem, ht, hop'⟩ := exists_token_between op hop
  refine ⟨ℓ, fun u => ?_⟩
  rw [BinaryOp.chars, ← ht, List.append_assoc]
  rcases hop' with rfl | ⟨o, i, rfl, rfl⟩
  · rw [Level.window?_of_mem hmem]
    exact .plain hmem (spaced_of_reads (Token.reads_chars (wordEnd_windowChars none u)))
  · exact .windowed hmem (spaced_of_reads (Token.reads_chars (wordEnd_windowChars (some i) u)))
      (window_chars i)

/-- A printed operator stands before a printed operand. -/
theorem leading_chars {op : UnaryOp} (hop : op.backend? = none) (u : List Char) :
    Leading op (op.chars ++ (parenthesized u ++ r)) (parenthesized u ++ r) := by
  obtain ⟨t, op', hmem, ht, hop'⟩ := exists_token_leading op hop
  rw [UnaryOp.chars, ← ht, List.append_assoc]
  rcases hop' with rfl | ⟨o, i, rfl, rfl⟩
  · rw [window?_of_mem_leading hmem]
    exact .plain hmem (spaced_of_reads (Token.reads_chars (wordEnd_windowChars none u)))
  · exact .windowed hmem (spaced_of_reads (Token.reads_chars (wordEnd_windowChars (some i) u)))
      (window_chars i)

/-- The same formula without horizons. -/
def bare : Formula → Formula
  | .leaf op _ => .leaf op none
  | .unary op f _ => .unary op (bare f) none
  | .binary op f g _ => .binary op (bare f) (bare g) none

theorem bare_beq (f : Formula) : (bare f == f) = true := by
  induction f with
  | leaf op _ =>
      rw [bare, Formula.leaf_beq_leaf]
      cases op with
      | constant x backend => simp [BEq.beq, LeafOp.beq, Value.same_refl]
      | «variable» v backend => simp [BEq.beq, LeafOp.beq]
  | unary op f _ ih => simp [bare, ih]
  | binary op f g _ ihf ihg => simp [bare, ihf, ihg]

/-- An operator between operands in parentheses makes a formula, whatever its level. -/
theorem derives_binary {op : BinaryOp} {m' : List Char} (ho : Between ℓ op m m')
    (hf : Derives (.whole .atom) f s m) (hg : Derives (.whole .atom) g m' r) :
    Derives (.whole .formula) (.binary op f g none) s r := by
  have hrank (ℓ : Level) : ℓ.rank ≤ Level.atom.rank := by cases ℓ <;> decide
  have hchain (hℓ : ℓ.isChain = true) : Derives (.whole ℓ) (.binary op f g none) s r :=
    .chain hℓ (hf.loosen (hrank _)) (.extend ho (hg.loosen (hrank _)) .finish)
  cases ℓ with
  | formula => exact hchain rfl
  | implication =>
      refine Derives.loosen (ℓ := .implication) (by decide) ?_
      exact .implication (hf.loosen (hrank _)) ho (hg.loosen (hrank _))
  | relational =>
      refine Derives.loosen (ℓ := .relational) (by decide) ?_
      exact .comparison (hf.loosen (hrank _)) ho (hg.loosen (hrank _))
  | disjunction | conjunction | binaryTemporal | additive | multiplicative =>
      exact (hchain rfl).loosen (by decide)
  | unary | atom =>
      cases ho with
      | plain hmem _ => cases hmem
      | windowed hmem _ _ => cases hmem

theorem derives_leaf {op : LeafOp} {horizon : Option Offset}
    (hf : (Formula.leaf op horizon).Readable) {r : List Char} (hr : WordEnd r) :
    Derives (.whole .formula) (bare (.leaf op horizon)) ((Formula.leaf op horizon).chars ++ r) r := by
  have hnode := Formula.all_leaf_iff.mp hf
  have hbackend := (Formula.plainNode_iff.mp hnode.toPlainNode).1
  refine Derives.loosen (ℓ := .atom) (by decide) ?_
  cases op with
  | constant x backend =>
      obtain rfl : backend = .reference := by
        cases backend <;> simp_all [Formula.backend?, LeafOp.backend]
      exact .number (spaced_of_reads (number_chars (hnode.finite x rfl)))
  | «variable» v backend =>
      obtain rfl : backend = .reference := by
        cases backend <;> simp_all [Formula.backend?, LeafOp.backend]
      exact .reference (spaced_of_reads (reference_iff.mpr ⟨hnode.named v rfl, rfl, hr⟩))

/-- The word for an absolute value stands before parentheses. -/
theorem derives_abs {f : Formula} {cs : List Char}
    (h : ∀ r, WordEnd r → Derives (.whole .formula) f (cs ++ r) r) (r : List Char) :
    Derives (.whole .formula) f.abs ((UnaryOp.abs .reference).chars ++ (parenthesized cs ++ r)) r := by
  have htext : (UnaryOp.abs .reference).chars ++ (parenthesized cs ++ r) =
      "abs".toList ++ '(' :: (cs ++ ')' :: r) := by
    simp [parenthesized, UnaryOp.chars, UnaryOp.operator, Operator.label, UnaryOp.window?,
      windowChars]
  have hword : (Token.word "abs").Reads ("abs".toList ++ '(' :: (cs ++ ')' :: r))
      ('(' :: (cs ++ ')' :: r)) := ⟨rfl, wordEnd_cons rfl⟩
  have hinside := h (')' :: r) (wordEnd_cons rfl)
  rw [htext]
  refine Derives.loosen (ℓ := .atom) (by decide) ?_
  exact .abs (spaced_of_reads hword) (spaced_of_reads rfl) hinside (spaced_of_reads rfl)

theorem derives_unary {f : Formula} {op : UnaryOp} {cs : List Char}
    (hbackend : op.backend? ≠ some .native)
    (h : ∀ r, WordEnd r → Derives (.whole .formula) f (cs ++ r) r) (r : List Char) :
    Derives (.whole .formula) (.unary op f none) (op.chars ++ (parenthesized cs ++ r)) r := by
  have hleading (hop : op.backend? = none) : Derives (.whole .formula)
      (.unary op f none) (op.chars ++ (parenthesized cs ++ r)) r := by
    have hinside := derives_parenthesized h r
    refine Derives.loosen (ℓ := .unary) (by decide) ?_
    exact .leading (leading_chars hop cs) (hinside.loosen (by decide))
  cases op with
  | abs backend =>
      obtain rfl : backend = .reference := by
        cases backend <;> simp_all [UnaryOp.backend?]
      exact derives_abs h r
  | not => exact hleading rfl
  | edge op => exact hleading rfl
  | temporal op w => exact hleading rfl

/-- The text of a readable formula is derived as the formula. -/
theorem derives_chars (f : Formula) (hf : f.Readable) :
    ∀ r, WordEnd r → Derives (.whole .formula) (bare f) (f.chars ++ r) r := by
  induction f with
  | leaf op horizon => exact fun _ => derives_leaf hf
  | unary op f horizon ih =>
      intro r _
      obtain ⟨hnode, hoperand⟩ := Formula.all_unary_iff.mp hf
      rw [Formula.chars, List.append_assoc]
      exact derives_unary (Formula.plainNode_iff.mp hnode.toPlainNode).1 (ih hoperand) r
  | binary op f g horizon ihf ihg =>
      intro r _
      obtain ⟨hnode, hf, hg⟩ := Formula.all_binary_iff.mp hf
      obtain ⟨ℓ, hbetween⟩ := exists_between (r := r) ((Formula.plainNode_iff.mp hnode.toPlainNode).1)
      have hright := derives_parenthesized (ihg hg) r
      have hleft := derives_parenthesized (ihf hf) (op.chars ++ (parenthesized g.chars ++ r))
      rw [Formula.chars, List.append_assoc, List.append_assoc]
      exact derives_binary (hbetween g.chars) hleft hright

/-- Nothing has to follow the text. -/
theorem derives_name {f : Formula} (hf : f.Readable) :
    Derives (.whole .formula) (bare f) f.name.toList [] := by
  have hname : f.name.toList = f.chars := String.toList_ofList
  have hderives := derives_chars f hf [] wordEnd_nil
  rwa [List.append_nil, ← hname] at hderives

end SignalLogic.Grammar
