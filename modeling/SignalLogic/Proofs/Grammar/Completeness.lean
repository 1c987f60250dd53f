import SignalLogic.Proofs.Grammar.Follow

/-!
# What is derived is read

By induction on the derivation, every phrase is read whole where the grammar lets
something follow it that is no part of it. Readers stand after blanks, since every lexeme
takes the blanks behind it.
-/

namespace SignalLogic.Grammar

open Reader

variable {s m r : List Char} {ℓ : Level} {f g : Formula}

/-- The reader of a level, given one of the whole language. -/
def Level.reader (language : Reader Formula) : Level → Reader Formula
  | formula => chain (Grammar.implication language) (joining <$> Level.formula.operatorReader)
  | implication => Grammar.implication language
  | disjunction => Grammar.disjunction language
  | conjunction => Grammar.conjunction language
  | binaryTemporal => Grammar.binaryTemporal language
  | unary => Grammar.unary language
  | relational => Grammar.relational language
  | additive => Grammar.additive language
  | multiplicative => Grammar.multiplicative language
  | atom => Grammar.atom language

theorem Level.reader_of_isChain (hℓ : ℓ.isChain = true) (language : Reader Formula) :
    ℓ.reader language = chain (ℓ.next.reader language) (joining <$> ℓ.operatorReader) := by
  cases ℓ with
  | formula => rfl
  | disjunction => exact disjunction_eq language
  | conjunction => exact conjunction_eq language
  | binaryTemporal => exact binaryTemporal_eq language
  | additive => exact additive_eq language
  | multiplicative => exact multiplicative_eq language
  | implication | unary | relational | atom => cases hℓ

/-- The language is its loosest level, with the language itself inside parentheses. -/
theorem formula_apply (s : List Char) :
    formula s = Level.formula.reader (within s.length formula) s := by
  rw [formula_eq]
  exact fix_eq _ s

/-- One more operator and operand of a chain. -/
def Level.furtherReader (language : Reader Formula) (ℓ : Level) :
    Reader ((Formula → Formula → Formula) × Formula) := do
  return (← joining <$> ℓ.operatorReader, ← ℓ.next.reader language)

/-- The operators and operands of a chain, applied from the left. -/
def foldChain (first : Formula) (others : List ((Formula → Formula → Formula) × Formula)) :
    Formula :=
  others.foldl (fun left (op, right) => op left right) first

variable {language : Reader Formula}

theorem chain_mismatch {operand : Reader Formula}
    {operator : Reader (Formula → Formula → Formula)}
    (h : ∃ m, operand s = .error (.mismatch m)) :
    ∃ m, chain operand operator s = .error (.mismatch m) := by
  obtain ⟨m, hm⟩ := h
  exact ⟨m, bind_apply_error hm⟩

theorem single_mismatch {first second : Reader Formula} {operator : Reader BinaryOp}
    (h : ∃ m, first s = .error (.mismatch m)) :
    ∃ m, single first operator second s = .error (.mismatch m) := by
  obtain ⟨m, hm⟩ := h
  exact ⟨m, bind_apply_error hm⟩

theorem inParentheses_mismatch (h : ∀ t, afterBlanks s ≠ '(' :: t) :
    ∃ m, inParentheses language s = .error (.mismatch m) := by
  refine ⟨_, bind_apply_error (token_apply_error (literal_mismatch ?_))⟩
  rintro ⟨t, ht⟩
  exact h t ht.symm

theorem variableName_mismatch (h : ∀ c t, s = c :: t → isSegmentHead c = false) :
    ∃ m, variableName s = .error (.mismatch m) := by
  have hidentifier : identifier s = .error (.mismatch s) := by
    cases s with
    | nil => rfl
    | cons c t => simp [identifier, mismatch, h c t rfl]
  refine ⟨s, bind_apply_error ?_⟩
  unfold segment filterMap
  rw [hidentifier]

theorem Blocked.head (h : Blocked s) {c : Char} {t : List Char} (hs : afterBlanks s = c :: t) :
    c = '>' ∨ c = '-' := by
  obtain ⟨u, hu | hu⟩ := h
  · rw [hs] at hu
    exact .inl (List.cons.inj hu).1
  · rw [hs] at hu
    exact .inr (List.cons.inj hu).1

theorem Blocked.atom (h : Blocked s) : ∃ m, atom language s = .error (.mismatch m) := by
  apply choice_mismatch
  intro p hp
  simp only [List.mem_cons, List.not_mem_nil, or_false] at hp
  rcases hp with rfl | rfl | rfl | rfl
  · obtain ⟨m, hm⟩ : ∃ m, number (afterBlanks s) = .error (.mismatch m) := by
      apply number_mismatch
      · intro c t hs
        rcases h.head hs with rfl | rfl <;> rfl
      · intro c t hs
        obtain ⟨u, hu | hu⟩ := h <;> rw [hs] at hu <;> cases hu
        rfl
    exact ⟨m, map_apply_error (token_apply_error hm)⟩
  · refine ⟨_, bind_apply_error (token_apply_error (bind_apply_error (literal_mismatch ?_)))⟩
    rintro ⟨t, ht⟩
    rcases h.head (ht.symm : _ = 'a' :: _) with hc | hc <;> cases hc
  · apply inParentheses_mismatch
    intro t ht
    rcases h.head ht with hc | hc <;> cases hc
  · obtain ⟨m, hm⟩ : ∃ m, variableName (afterBlanks s) = .error (.mismatch m) := by
      apply variableName_mismatch
      intro c t hs
      rcases h.head hs with rfl | rfl <;> rfl
    exact ⟨m, map_apply_error (token_apply_error hm)⟩

/-- Where none of the operators before an operand is read, none of their tables is. -/
theorem leadings_mismatch {unary : Reader Formula}
    (h : ∀ entry ∈ leadingOperators, ∃ m, entry.1.reader s = .error (.mismatch m)) :
    ∀ p ∈ [leading negations unary, leading edges unary, leading temporals unary],
      ∃ m, p s = .error (.mismatch m) := by
  have htable {table : List (Token × UnaryOp)} (hsub : table ⊆ leadingOperators) :
      ∃ m, leading table unary s = .error (.mismatch m) :=
    leading_mismatch fun entry hentry => h entry (hsub hentry)
  intro p hp
  simp only [List.mem_cons, List.not_mem_nil, or_false] at hp
  rcases hp with rfl | rfl | rfl
  · exact htable (by decide)
  · exact htable (by decide)
  · exact htable (by decide)

/-- No operator before an operand begins as the rest of a looser operator does. -/
theorem Blocked.reader_mismatch {t : Token} {op : UnaryOp} (h : Blocked s)
    (hmem : (t, op) ∈ leadingOperators) : ∃ m, t.reader s = .error (.mismatch m) := by
  obtain ⟨c, cs, hc, -⟩ := Token.exists_chars_of_isSolid (isSolid_of_mem_leading hmem)
  obtain ⟨hne, hne'⟩ : c ≠ '>' ∧ c ≠ '-' :=
    Token.head_of_mem (p := fun c => c ≠ '>' ∧ c ≠ '-') (by decide) hmem hc
  obtain ⟨u, hu | hu⟩ := h
  · exact Token.reader_mismatch_of_head hc hu hne
  · exact Token.reader_mismatch_of_head hc hu hne'

/-- The rest of a looser operator is read at no level. -/
theorem Blocked.reader (h : Blocked s) (language : Reader Formula) (ℓ : Level) :
    ∃ m, ℓ.reader language s = .error (.mismatch m) := by
  have hatom : ∃ m, Grammar.atom language s = .error (.mismatch m) := h.atom
  have hmultiplicative : ∃ m, Grammar.multiplicative language s = .error (.mismatch m) :=
    chain_mismatch hatom
  have hadditive : ∃ m, Grammar.additive language s = .error (.mismatch m) :=
    chain_mismatch hmultiplicative
  have hrelational : ∃ m, Grammar.relational language s = .error (.mismatch m) := by
    rw [relational_eq]
    exact single_mismatch hadditive
  have hunary : ∃ m, Grammar.unary language s = .error (.mismatch m) := by
    rw [unary_apply]
    apply choice_mismatch
    intro p hp
    have hsplit : p ∈ [leading negations _, leading edges _, leading temporals _] ++
        [Grammar.relational language] := hp
    rcases List.mem_append.mp hsplit with hleading | hother
    · exact leadings_mismatch (fun entry hentry => h.reader_mismatch hentry) p hleading
    · obtain rfl := List.mem_singleton.mp hother
      exact hrelational
  have hbinaryTemporal : ∃ m, Grammar.binaryTemporal language s = .error (.mismatch m) :=
    chain_mismatch hunary
  have hconjunction : ∃ m, Grammar.conjunction language s = .error (.mismatch m) :=
    chain_mismatch hbinaryTemporal
  have hdisjunction : ∃ m, Grammar.disjunction language s = .error (.mismatch m) :=
    chain_mismatch hconjunction
  have himplication : ∃ m, Grammar.implication language s = .error (.mismatch m) := by
    rw [implication_apply]
    exact single_mismatch hdisjunction
  cases ℓ with
  | formula => exact chain_mismatch himplication
  | implication => exact himplication
  | disjunction => exact hdisjunction
  | conjunction => exact hconjunction
  | binaryTemporal => exact hbinaryTemporal
  | unary => exact hunary
  | relational => exact hrelational
  | additive => exact hadditive
  | multiplicative => exact hmultiplicative
  | atom => exact hatom

/-- After a phrase a chain of its level does not go on. -/
theorem Follows.furtherReader (h : Follows ℓ s) (language : Reader Formula) :
    ∃ m, ℓ.furtherReader language s = .error (.mismatch m) := by
  rcases h.operatorReader with ⟨m, hm⟩ | ⟨op, r, hop, -, hblocked⟩
  · exact ⟨m, bind_apply_error (map_apply_error hm)⟩
  · obtain ⟨m, hm⟩ := hblocked.reader language ℓ.next
    refine ⟨m, ?_⟩
    rw [Level.furtherReader, bind_apply_ok (map_eq_ok_iff.mpr ⟨op, hop, rfl⟩)]
    exact bind_apply_error hm

/-- An operator of a level is read together with its right operand. -/
theorem furtherReader_of_between {op : BinaryOp} (ho : Between ℓ op s m) (hm : Opens m)
    {r' : List Char} (hg : ℓ.next.reader language (afterBlanks m) = .ok (g, r')) :
    ℓ.furtherReader language (afterBlanks s) = .ok ((joining op, g), r') := by
  have hop := operatorReader_of_between ho hm
  refine bind_eq_ok_iff.mpr ⟨joining op, _, map_eq_ok_iff.mpr ⟨op, hop, rfl⟩, ?_⟩
  exact bind_eq_ok_iff.mpr ⟨g, r', hg, rfl⟩

/-- Without an operator of the level the first operand is all. -/
theorem single_of_follows {first second : Reader Formula} {r' : List Char}
    (hf : first s = .ok (f, r')) (hr : Follows ℓ r')
    (hsecond : ∀ t, Blocked t → ∃ m, second t = .error (.mismatch m)) :
    single first ℓ.operatorReader second s = .ok (f, r') := by
  refine bind_eq_ok_iff.mpr ⟨f, r', hf, ?_⟩
  refine bind_eq_ok_iff.mpr ⟨none, r', ?_, rfl⟩
  rcases hr.operatorReader with ⟨m, hm⟩ | ⟨op, t, hop, -, hblocked⟩
  · exact optional_of_mismatch (bind_apply_error hm)
  · obtain ⟨m, hm⟩ := hsecond t hblocked
    refine optional_of_mismatch (m := m) ?_
    rw [bind_apply_ok hop]
    exact bind_apply_error hm

theorem single_of_between {first second : Reader Formula} {op : BinaryOp} {m' r' : List Char}
    (hf : first s = .ok (f, afterBlanks m)) (ho : Between ℓ op m m') (hm' : Opens m')
    (hg : second (afterBlanks m') = .ok (g, r')) :
    single first ℓ.operatorReader second s = .ok (joining op f g, r') := by
  refine bind_eq_ok_iff.mpr ⟨f, _, hf, ?_⟩
  refine bind_eq_ok_iff.mpr ⟨some (op, g), r', optional_of_ok ?_, rfl⟩
  refine bind_eq_ok_iff.mpr ⟨op, _, operatorReader_of_between ho hm', ?_⟩
  exact bind_eq_ok_iff.mpr ⟨g, r', hg, rfl⟩

theorem inParentheses_of_spaced {m' : List Char} (ho : Spaced (Token.symbol "(").Reads s m)
    (hf : language (afterBlanks m) = .ok (f, afterBlanks m'))
    (hc : Spaced (Token.symbol ")").Reads m' r) :
    inParentheses language (afterBlanks s) = .ok (f, afterBlanks r) := by
  have hopen := Token.symbol_of_spaced (by decide) (ho.afterBlanks (Token.solid_reads (by decide)))
  have hclose := Token.symbol_of_spaced (by decide) (hc.afterBlanks (Token.solid_reads (by decide)))
  refine bind_eq_ok_iff.mpr ⟨(), _, hopen, ?_⟩
  refine bind_eq_ok_iff.mpr ⟨f, _, hf, ?_⟩
  exact bind_eq_ok_iff.mpr ⟨(), _, hclose, rfl⟩

/-- Where no number begins, none is read. -/
theorem token_number_mismatch {c : Char} {t : List Char} (hs : afterBlanks s = c :: t)
    (hdigit : c.isDigit = false) (hminus : c ≠ '-') :
    ∃ m, token number s = .error (.mismatch m) := by
  obtain ⟨m, hm⟩ : ∃ m, number (afterBlanks s) = .error (.mismatch m) := by
    rw [hs]
    apply number_mismatch
    · intro c t hs
      exact (List.cons.inj hs).1 ▸ hdigit
    · intro d u hs
      exact absurd (List.cons.inj hs).1 hminus
  exact ⟨m, token_apply_error hm⟩

theorem atom_of_number {x : Value} (h : Spaced (Number x) s r) (hr : Follows ℓ r) :
    atom language (afterBlanks s) = .ok (.ofValue x, afterBlanks r) := by
  refine orElse_of_ok (map_eq_ok_iff.mpr ⟨x, ?_, rfl⟩)
  exact token_of_spaced (solid_number x)
    (fun h hb => number_of_number h (hr.of_blanks hb).numberEnd) (h.afterBlanks (solid_number x))

/-- Where a parenthesis opens, the alternatives for an atom before it are passed over. -/
theorem mismatch_before_parentheses (ho : Spaced (Token.symbol "(").Reads s m) :
    ∀ q ∈ [.ofValue <$> token number, (do keyword "abs"; return (← inParentheses language).abs)],
      ∃ n, q (afterBlanks s) = .error (.mismatch n) := by
  have ho' := ho.afterBlanks (Token.solid_reads (by decide))
  obtain ⟨t, ht, -⟩ := ho'.exists_of_solid (Token.solid_reads (by decide))
  intro q hq
  simp only [List.mem_cons, List.not_mem_nil, or_false] at hq
  rcases hq with rfl | rfl
  · obtain ⟨n, hn⟩ := token_number_mismatch ht rfl (by decide)
    exact ⟨n, map_apply_error hn⟩
  · obtain ⟨n, hn⟩ := Token.reader_mismatch_of_apart (u := .word "abs") (by decide) (by decide) ho'
    exact ⟨n, bind_apply_error hn⟩

/-- Where an absolute value begins, no number does. -/
theorem mismatch_before_abs (ha : Spaced (Token.word "abs").Reads s m) :
    ∀ q ∈ [Formula.ofValue <$> token number], ∃ n, q (afterBlanks s) = .error (.mismatch n) := by
  have ha' := ha.afterBlanks (Token.solid_reads (by decide))
  obtain ⟨t, ht, -⟩ := ha'.exists_of_solid (Token.solid_reads (by decide))
  intro q hq
  obtain rfl := List.mem_singleton.mp hq
  obtain ⟨n, hn⟩ := token_number_mismatch ht.eq_append rfl (by decide)
  exact ⟨n, map_apply_error hn⟩

/-- The word for an absolute value is read before a parenthesis. -/
theorem keyword_abs_of_spaced {s' : List Char} (ha : Spaced (Token.word "abs").Reads s s')
    (ho : Spaced (Token.symbol "(").Reads s' m) :
    keyword "abs" (afterBlanks s) = .ok ((), afterBlanks s') := by
  obtain ⟨u, hu, -⟩ := ho.exists_of_solid (Token.solid_reads (by decide))
  have hopens : Opens s' := ⟨'(', u, hu, by simp⟩
  exact Token.reader_of_spaced (t := .word "abs") (by decide)
    (fun _ _ hs => (head_after_token (.inl hopens) hs).1)
    (ha.afterBlanks (Token.solid_reads (by decide)))

theorem atom_of_parentheses {m' : List Char} (ho : Spaced (Token.symbol "(").Reads s m)
    (hf : language (afterBlanks m) = .ok (f, afterBlanks m'))
    (hc : Spaced (Token.symbol ")").Reads m' r) :
    atom language (afterBlanks s) = .ok (f, afterBlanks r) :=
  choice_append_cons [_, _] (mismatch_before_parentheses ho) (inParentheses_of_spaced ho hf hc)

theorem atom_of_abs {s' m' : List Char} (ha : Spaced (Token.word "abs").Reads s s')
    (ho : Spaced (Token.symbol "(").Reads s' m)
    (hf : language (afterBlanks m) = .ok (f, afterBlanks m'))
    (hc : Spaced (Token.symbol ")").Reads m' r) :
    atom language (afterBlanks s) = .ok (f.abs, afterBlanks r) := by
  refine choice_append_cons [_] (mismatch_before_abs ha) ?_
  refine bind_eq_ok_iff.mpr ⟨(), _, keyword_abs_of_spaced ha ho, ?_⟩
  exact bind_eq_ok_iff.mpr ⟨f, _, inParentheses_of_spaced ho hf hc, rfl⟩

theorem atom_of_reference {v : Variable} (h : Spaced (Reference v) s r) (hr : Follows ℓ r) :
    atom language (afterBlanks s) = .ok (.ofVariable v, afterBlanks r) := by
  have h' := h.afterBlanks (solid_reference v)
  obtain ⟨m, hm, -⟩ := h'.exists_of_solid (solid_reference v)
  obtain ⟨c, t, hs, hc⟩ := hm.head
  refine choice_append_cons [_, _, _] ?_ (map_eq_ok_iff.mpr ⟨v, ?_, rfl⟩)
  · intro q hq
    simp only [List.mem_cons, List.not_mem_nil, or_false] at hq
    rcases hq with rfl | rfl | rfl
    · have hdigit : c.isDigit = false := by
        rw [← Bool.not_eq_true, isDigit_iff]
        rw [isSegmentHead_iff] at hc
        omega
      have hminus : c ≠ '-' := by
        rintro rfl
        exact absurd hc (by decide)
      obtain ⟨n, hn⟩ := token_number_mismatch hs hdigit hminus
      exact ⟨n, map_apply_error hn⟩
    · obtain ⟨n, hn⟩ := hm.reader_mismatch (show "abs" ∈ reserved by decide)
      exact ⟨n, bind_apply_error hn⟩
    · apply inParentheses_mismatch
      intro u hu
      rw [hs] at hu
      obtain rfl : c = '(' := (List.cons.inj hu).1
      exact absurd hc (by decide)
  · exact token_of_spaced (solid_reference v)
      (fun h hb => variableName_of_reference h (hr.of_blanks hb).ne_dot) h'

namespace Phrase

/-- The level of a phrase or of a chain. -/
def level : Phrase → Level
  | whole ℓ => ℓ
  | further ℓ _ => ℓ

/-- The readers of a level read the phrase as a formula. -/
def Read (language : Reader Formula) : Phrase → Formula → List Char → List Char → Prop
  | whole ℓ, f, s, r => ℓ.reader language (afterBlanks s) = .ok (f, afterBlanks r)
  | further ℓ first, f, s, r =>
      ∃ others, many (ℓ.furtherReader language) (afterBlanks s) = .ok (others, afterBlanks r) ∧
        foldChain first others = f

end Phrase

/-- In parentheses, further on, the language is its loosest level. -/
theorem language_inside_eq (hlt : (afterBlanks m).length < (afterBlanks s).length)
    (hlanguage : ∀ t, t.length < (afterBlanks s).length → language t = formula t) :
    language (afterBlanks m) =
      Level.formula.reader (within (afterBlanks m).length formula) (afterBlanks m) := by
  rw [hlanguage _ hlt, formula_apply]

theorem Follows.of_closing (hc : Spaced (Token.symbol ")").Reads m r) : Follows ℓ m := by
  obtain ⟨u, hu, -⟩ := hc.exists_of_solid (Token.solid_reads (by decide))
  exact .closing hu

/-- A formula in parentheses is read there. -/
theorem language_inside {m' : List Char} (hlt : (afterBlanks m).length < (afterBlanks s).length)
    (hlanguage : ∀ t, t.length < (afterBlanks s).length → language t = formula t)
    (hc : Spaced (Token.symbol ")").Reads m' r)
    (hf : ∀ p : Reader Formula, (∀ t, t.length < (afterBlanks m).length → p t = formula t) →
      Follows .formula m' → Level.formula.reader p (afterBlanks m) = .ok (f, afterBlanks m')) :
    language (afterBlanks m) = .ok (f, afterBlanks m') := by
  rw [language_inside_eq hlt hlanguage]
  exact hf _ (fun t ht => within_of_lt ht) (.of_closing hc)

/-- Without an operator before the operand the comparison is read. -/
theorem choice_of_begins {unary other : Reader Formula} {r' : List Char} (h : Begins s)
    (hf : other s = .ok (f, r')) :
    choice [leading negations unary, leading edges unary, leading temporals unary, other] s =
      .ok (f, r') := by
  refine choice_append_cons [_, _, _] ?_ hf
  exact leadings_mismatch fun entry hentry => h.reader_mismatch hentry

namespace Phrase.Read

variable {k : Formula} {op : BinaryOp} {m' : List Char}

/-- A chain is read with the operators and operands that follow its first operand. -/
theorem chain (hℓ : ℓ.isChain = true) (hf : (whole ℓ.next).Read language f s m)
    (hg : (further ℓ f).Read language g m r) : (whole ℓ).Read language g s r := by
  obtain ⟨others, hothers, hfold⟩ := hg
  show ℓ.reader language (afterBlanks s) = .ok (g, afterBlanks r)
  rw [Level.reader_of_isChain hℓ]
  refine bind_eq_ok_iff.mpr ⟨f, _, hf, ?_⟩
  exact bind_eq_ok_iff.mpr ⟨others, _, hothers, pure_eq_ok_iff.mpr ⟨hfold, rfl⟩⟩

theorem finish (hr : Follows ℓ s) : (further ℓ f).Read language f s s := by
  obtain ⟨m, hm⟩ := hr.trimmed.furtherReader language
  exact ⟨[], many_of_mismatch hm, rfl⟩

theorem extend (ho : Between ℓ op s m) (hm : Opens m)
    (hlt : (afterBlanks m').length < (afterBlanks s).length)
    (hg : (whole ℓ.next).Read language g m m')
    (hk : (further ℓ (.binary op f g none)).Read language k m' r) :
    (further ℓ f).Read language k s r := by
  obtain ⟨others, hothers, hfold⟩ := hk
  have hstep := furtherReader_of_between ho hm hg
  exact ⟨_, many_of_ok hstep hlt hothers, hfold⟩

theorem comparison (hf : (whole .additive).Read language f s m) (ho : Between .relational op m m')
    (hm : Opens m') (hg : (whole .additive).Read language g m' r) :
    (whole .relational).Read language (.binary op f g none) s r := by
  show relational language (afterBlanks s) = _
  rw [relational_eq]
  exact single_of_between hf ho hm hg

/-- The right operand of an implication is read where less of the text is left. -/
theorem implication (hf : (whole .disjunction).Read language f s m)
    (ho : Between .implication op m m') (hm : Opens m')
    (hlt : (afterBlanks m').length < (afterBlanks s).length)
    (hg : (whole .implication).Read language g m' r) :
    (whole .implication).Read language (.binary op f g none) s r := by
  show Grammar.implication language (afterBlanks s) = _
  rw [implication_apply]
  exact single_of_between hf ho hm ((within_of_lt hlt).trans hg)

/-- So is the operand of an operator before it. -/
theorem leading {op : UnaryOp} (ho : Leading op s m) (hm : Opens m)
    (hf : (whole .unary).Read language f m r) :
    (whole .unary).Read language (.unary op f none) s r := by
  show unary language (afterBlanks s) = _
  rw [unary_apply]
  exact choice_of_leading ho hm ((within_of_lt ho.length_lt).trans hf)

theorem implication_of_tighter (hf : (whole .disjunction).Read language f s r)
    (hr : Follows .implication r) : (whole .implication).Read language f s r := by
  show Grammar.implication language (afterBlanks s) = _
  rw [implication_apply]
  exact single_of_follows hf hr.trimmed fun t ht => within_mismatch (ht.reader _ .implication)

theorem unary_of_tighter (hf : (whole .relational).Read language f s r) (hs : Begins s) :
    (whole .unary).Read language f s r := by
  show unary language (afterBlanks s) = _
  rw [unary_apply]
  exact choice_of_begins hs.trimmed hf

theorem relational_of_tighter (hf : (whole .additive).Read language f s r)
    (hr : Follows .relational r) : (whole .relational).Read language f s r := by
  show relational language (afterBlanks s) = _
  rw [relational_eq]
  exact single_of_follows hf hr.trimmed fun t ht => ht.reader _ .additive

end Phrase.Read

/-- Every phrase is read, by readers that have the whole language inside parentheses. -/
theorem Derives.read {phrase : Phrase} (h : Derives phrase f s r)
    (hlanguage : ∀ t, t.length < (afterBlanks s).length → language t = formula t)
    (hr : Follows phrase.level r) : phrase.Read language f s r := by
  induction h generalizing language with
  | number h => exact atom_of_number h hr
  | reference h => exact atom_of_reference h hr
  | parentheses ho _ hc ih =>
      have hlt := ho.length_lt (Token.solid_reads (by decide))
      exact atom_of_parentheses ho (language_inside hlt hlanguage hc fun _ => ih) hc
  | abs ha ho _ hc ih =>
      have habs := ha.length_lt (Token.solid_reads (by decide))
      have hopen := ho.length_lt (Token.solid_reads (by decide))
      exact atom_of_abs ha ho
        (language_inside (hopen.trans habs) hlanguage hc fun _ => ih) hc
  | chain hℓ hf hg ihf ihg =>
      have hothers := ihg (fun t ht => hlanguage t (ht.trans_le hf.length_le)) hr
      exact .chain hℓ (ihf hlanguage (hg.follows_next hr)) hothers
  | finish => exact .finish hr
  | extend ho hg hk ihg ihk =>
      have hshorter := ho.length_lt
      have hlt := hg.length_le.trans_lt hshorter
      have hoperand := ihg (fun t ht => hlanguage t (ht.trans hshorter)) (hk.follows_next hr)
      have hothers := ihk (fun t ht => hlanguage t (ht.trans hlt)) hr
      exact .extend ho hg.opens hlt hoperand hothers
  | comparison hf ho hg ihf ihg =>
      have hshorter := ho.length_lt.trans_le hf.length_le
      have hleft := ihf hlanguage (.of_between (by decide) ho)
      have hright := ihg (fun t ht => hlanguage t (ht.trans hshorter)) (hr.mono (by decide))
      exact .comparison hleft ho hg.opens hright
  | implication hf ho hg ihf ihg =>
      have hshorter := ho.length_lt.trans_le hf.length_le
      have hleft := ihf hlanguage (.of_between (by decide) ho)
      have hright := ihg (fun t ht => hlanguage t (ht.trans hshorter)) hr
      exact .implication hleft ho hg.opens hshorter hright
  | leading ho hf ih =>
      have hoperand := ih (fun t ht => hlanguage t (ht.trans ho.length_lt)) hr
      exact .leading ho hf.opens hoperand
  | @tighter ℓ f s r hℓ hf ih =>
      have hread := ih hlanguage (hr.mono ℓ.rank_le_rank_next)
      rcases hℓ with rfl | rfl | rfl
      · exact hread.implication_of_tighter hr
      · exact hread.unary_of_tighter (hf.begins (by decide))
      · exact hread.relational_of_tighter hr

end SignalLogic.Grammar
