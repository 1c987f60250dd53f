import SignalLogic.Proofs.Failing
import SignalLogic.Proofs.Grammar.Cutting

/-!
# Where reading a formula fails

The readers of all levels fail in one of two ways. Either nothing is read at all, and then the
mismatch is that of the last alternative for an atom, a variable, at the first character that is
no blank. Or an interval fails behind the word of a temporal operator, and its failure is the
one of the whole. The language satisfies its equation, so a level may be taken with the
language itself inside parentheses.
-/

namespace SignalLogic.Grammar

open Reader

variable {α β : Type} {s m r : List Char} {e : Failure} {n : Nat} {ℓ : Level}
  {p q language : Reader Formula}

/-- The words of the operators that may have a window. -/
def temporalWords : List String :=
  ["once", "historically", "eventually", "always", "since", "until", "precedes"]

/-- The text begins with the word of a temporal operator, and the interval behind it fails. -/
def Faulty (s : List Char) (e : Failure) : Prop :=
  ∃ word ∈ temporalWords, ∃ m, Spaced (Token.word word).Reads s m ∧ interval m = .error e

theorem Level.exists_word_of_mem {t : Token} {op : BinaryOp} (h : (t, op) ∈ ℓ.operators)
    (hop : op.operator.acceptsInterval = true) : ∃ word ∈ temporalWords, t = .word word := by
  have hall : ∀ entry ∈ ℓ.operators, entry.2.operator.acceptsInterval = true →
      ∃ word ∈ temporalWords, entry.1 = .word word := by
    cases ℓ <;> decide
  exact hall _ h hop

theorem exists_word_of_mem_leading {t : Token} {op : UnaryOp} (h : (t, op) ∈ leadingOperators)
    (hop : op.operator.acceptsInterval = true) : ∃ word ∈ temporalWords, t = .word word := by
  have hall : ∀ entry ∈ leadingOperators, entry.2.operator.acceptsInterval = true →
      ∃ word ∈ temporalWords, entry.1 = .word word := by decide
  exact hall _ h hop

variable {F : List Char → Failure → Prop}

theorem orderly_reader_token (t : Token) : Orderly F t.reader := by
  cases t with
  | symbol text => exact (Orderly.literal text).token
  | word text =>
      exact ((Orderly.literal text).bind fun _ => Orderly.unlessNext isWordChar).token

theorem orderly_tokens (table : List (Token × α)) : Orderly F (tokens table) := by
  refine Orderly.choice fun p hp => ?_
  obtain ⟨⟨t, a⟩, -, rfl⟩ := List.mem_map.mp hp
  rw [giving_eq_map]
  exact (orderly_reader_token t).map _

theorem orderly_number : Orderly F number := by
  have hdigits : Orderly F digits := Orderly.run Char.isDigit
  have hdecimal : Orderly F signedDecimal :=
    (Orderly.literal "-").optional.bind fun _ => hdigits.bind fun _ =>
      ((Orderly.literal ".").bind fun _ => hdigits).optional.bind fun _ => Orderly.pure _
  exact hdecimal.bind fun _ => Orderly.pure _

theorem orderly_identifier : Orderly F identifier := by
  intro s
  cases s with
  | nil => exact Located.mismatch
  | cons c rest =>
      simp only [identifier]
      split
      · exact (List.dropWhile_suffix isSegmentTail).trans (List.suffix_cons c rest)
      · exact Located.mismatch

theorem orderly_variableName : Orderly F variableName := by
  have hsegment : Orderly F segment := orderly_identifier.filterMap _
  exact hsegment.bind fun _ =>
    ((Orderly.literal ".").bind fun _ => hsegment).many.bind fun _ => Orderly.pure _

/-- An operator fails behind its token only, where its interval does. -/
theorem placed_optional_interval {word : String} {f : Option Interval → α}
    (hword : word ∈ temporalWords) (ht : Spaced (Token.word word).Reads s m) :
    Placed Faulty s ((f <$> optional interval) m) := by
  cases h : (f <$> optional interval) m with
  | ok result =>
      obtain ⟨a, r⟩ := result
      obtain ⟨w, hw, -⟩ := map_eq_ok_iff.mp h
      have hs : m <:+ s := ht.cut_token.suffix
      rcases optional_eq_ok hw with ⟨i, -, hi⟩ | ⟨-, rfl⟩
      · exact (window_of_interval hi).1.cut.suffix.trans hs
      · exact hs
  | error failure =>
      obtain ⟨hi, -⟩ := optional_eq_error (map_eq_error_iff.mp h)
      exact Located.inside (List.suffix_refl s) ⟨word, hword, m, ht, hi⟩

/-- A table of tokens is orderly with what comes behind each of its tokens. -/
theorem orderly_tokens_bind {table : List (Token × α)} {p : α → Reader β}
    (h : ∀ {t a s m}, (t, a) ∈ table → Spaced t.Reads s m → Placed Faulty s (p a m)) :
    Orderly Faulty (tokens table >>= p) := by
  intro s
  cases htoken : tokens table s with
  | error failure =>
      rw [bind_apply_error htoken]
      exact (orderly_tokens table).located htoken
  | ok result =>
      obtain ⟨a, m⟩ := result
      obtain ⟨t, hmem, ht, -⟩ := spaced_of_tokens htoken
      rw [bind_apply_ok htoken]
      exact h hmem ht

theorem orderly_operatorReader (ℓ : Level) : Orderly Faulty ℓ.operatorReader := by
  refine orderly_tokens_bind fun {t op s m} hmem ht => ?_
  cases op with
  | temporal op w =>
      obtain ⟨word, hword, rfl⟩ := Level.exists_word_of_mem hmem rfl
      exact placed_optional_interval hword ht
  | arithmetic | comparison | logic => exact ht.cut_token.suffix

theorem orderly_leadingReader {table : List (Token × UnaryOp)}
    (htable : table ⊆ leadingOperators) : Orderly Faulty (leadingReader table) := by
  refine orderly_tokens_bind fun {t op s m} hmem ht => ?_
  cases op with
  | temporal op w =>
      obtain ⟨word, hword, rfl⟩ := exists_word_of_mem_leading (htable hmem) rfl
      exact placed_optional_interval hword ht
  | abs | not | edge => exact ht.cut_token.suffix

theorem orderly_chain (h : Orderly Faulty p) :
    Orderly Faulty (chain p (joining <$> ℓ.operatorReader)) :=
  h.bind fun _ =>
    (((orderly_operatorReader ℓ).map joining).bind fun _ =>
      h.bind fun _ => Orderly.pure _).many.bind fun _ => Orderly.pure _

theorem orderly_single (hp : Orderly Faulty p) (hq : Orderly Faulty q) :
    Orderly Faulty (single p ℓ.operatorReader q) := by
  refine hp.bind fun left => ?_
  refine ((orderly_operatorReader ℓ).bind fun _ =>
    hq.bind fun _ => Orderly.pure _).optional.bind fun found => ?_
  cases found with
  | none => exact Orderly.pure _
  | some pair => exact Orderly.pure _

theorem orderly_leading {table : List (Token × UnaryOp)} (htable : table ⊆ leadingOperators)
    (h : Orderly Faulty p) : Orderly Faulty (leading table p) :=
  (orderly_leadingReader htable).bind fun _ => h.bind fun _ => Orderly.pure _

theorem orderly_inParentheses (h : Orderly Faulty language) :
    Orderly Faulty (inParentheses language) :=
  (orderly_reader_token (.symbol "(")).bind fun _ =>
    h.bind fun _ => (orderly_reader_token (.symbol ")")).bind fun _ => Orderly.pure _

theorem orderly_atom (h : Orderly Faulty language) : Orderly Faulty (atom language) := by
  refine Orderly.choice fun p hp => ?_
  simp only [List.mem_cons, List.not_mem_nil, or_false] at hp
  rcases hp with rfl | rfl | rfl | rfl
  · exact orderly_number.token.map _
  · exact (orderly_reader_token (.word "abs")).bind fun _ =>
      (orderly_inParentheses h).bind fun _ => Orderly.pure _
  · exact orderly_inParentheses h
  · exact orderly_variableName.token.map _

/-- From the atoms each level is reached through chains of operators and the three levels that
are built in their own ways. -/
theorem Level.induction {P : Level → Prop} (atom : P .atom)
    (chain : ∀ ℓ, ℓ.isChain = true → P ℓ.next → P ℓ) (relational : P .additive → P .relational)
    (unary : P .relational → P .unary) (implication : P .disjunction → P .implication)
    (ℓ : Level) : P ℓ := by
  have hadditive : P .additive := chain .additive rfl (chain .multiplicative rfl atom)
  have hrelational : P .relational := relational hadditive
  have hunary : P .unary := unary hrelational
  have hconjunction : P .conjunction := chain .conjunction rfl (chain .binaryTemporal rfl hunary)
  have hdisjunction : P .disjunction := chain .disjunction rfl hconjunction
  have himplication : P .implication := implication hdisjunction
  cases ℓ with
  | formula => exact chain .formula rfl himplication
  | binaryTemporal => exact chain .binaryTemporal rfl hunary
  | multiplicative => exact chain .multiplicative rfl atom
  | implication | disjunction | conjunction | unary | relational | additive | atom => assumption

theorem orderly_reader (h : Orderly Faulty language) (ℓ : Level) :
    Orderly Faulty (ℓ.reader language) := by
  induction ℓ using Level.induction with
  | atom => exact orderly_atom h
  | chain ℓ hℓ ih =>
      rw [Level.reader_of_isChain hℓ]
      exact orderly_chain ih
  | relational ih =>
      change Orderly Faulty (relational language)
      rw [relational_eq]
      exact orderly_single ih ih
  | unary ih =>
      change Orderly Faulty (unary language)
      rw [unary_eq]
      refine Orderly.fix fun p hp => Orderly.choice fun q hq => ?_
      simp only [List.mem_cons, List.not_mem_nil, or_false] at hq
      rcases hq with rfl | rfl | rfl | rfl
      · exact orderly_leading (by decide) hp
      · exact orderly_leading (by decide) hp
      · exact orderly_leading (by decide) hp
      · exact ih
  | implication ih =>
      change Orderly Faulty (implication language)
      rw [implication_eq]
      exact Orderly.fix fun p hp => orderly_single ih hp

theorem orderly_formula : Orderly Faulty formula := by
  rw [formula_eq]
  exact Orderly.fix fun p hp => orderly_reader hp .formula

theorem consuming_symbol {text : String} (ht : (Token.symbol text).isSolid = true) :
    Consuming (symbol text) := by
  intro s a r h
  obtain ⟨hspaced, hr⟩ := Token.spaced_of_reader (t := .symbol text) h
  have hlt := hspaced.length_lt (Token.solid_reads ht)
  rw [hr] at hlt
  exact hlt.trans_le (length_afterBlanks_le s)

theorem agree_chain (h : Agree n p q) (hp : Orderly Faulty p) :
    Agree n (chain p (joining <$> ℓ.operatorReader)) (chain q (joining <$> ℓ.operatorReader)) :=
  h.bind hp.shrinking fun _ =>
    ((Agree.refl n _).bind ((orderly_operatorReader ℓ).map joining).shrinking fun _ =>
      h.bind_left _).many.bind_left _

theorem agree_single {p' q' : Reader Formula} (h : Agree n p q) (hp : Orderly Faulty p)
    (h' : Agree n p' q') :
    Agree n (single p ℓ.operatorReader p') (single q ℓ.operatorReader q') :=
  h.bind hp.shrinking fun _ =>
    ((Agree.refl n _).bind (orderly_operatorReader ℓ).shrinking fun _ =>
      h'.bind_left _).optional.bind_left _

/-- A formula in parentheses begins behind the first one. -/
theorem agree_inParentheses (h : Agree n p q) :
    Agree (n + 1) (inParentheses p) (inParentheses q) :=
  Agree.bind_right (consuming_symbol (by decide)) fun _ => h.bind_left _

theorem agree_atom (h : Agree n p q) : Agree (n + 1) (atom p) (atom q) := by
  have habs : Shrinking (keyword "abs") :=
    (orderly_reader_token (F := Faulty) (.word "abs")).shrinking
  exact (Agree.refl _ _).orElse
    (((Agree.refl _ _).bind habs fun _ => (agree_inParentheses h).bind_left _).orElse
      ((agree_inParentheses h).orElse (Agree.refl _ _)))

/-- Every level asks the language for shorter texts only. -/
theorem agree_reader (h : Agree n p q) (hp : Orderly Faulty p) (ℓ : Level) :
    Agree (n + 1) (ℓ.reader p) (ℓ.reader q) := by
  induction ℓ using Level.induction with
  | atom => exact agree_atom h
  | chain ℓ hℓ ih =>
      rw [Level.reader_of_isChain hℓ, Level.reader_of_isChain hℓ]
      exact agree_chain ih (orderly_reader hp ℓ.next)
  | relational ih =>
      change Agree _ (relational p) (relational q)
      rw [relational_eq, relational_eq]
      exact agree_single ih (orderly_reader hp .additive) ih
  | unary ih =>
      change Agree _ (unary p) (unary q)
      rw [unary_eq, unary_eq]
      exact Agree.fix fun u => (Agree.refl _ _).orElse
        ((Agree.refl _ _).orElse ((Agree.refl _ _).orElse ih))
  | implication ih =>
      change Agree _ (implication p) (implication q)
      rw [implication_eq, implication_eq]
      exact Agree.fix fun u => agree_single ih (orderly_reader hp .disjunction) (Agree.refl _ u)

/-- The language is its loosest level, with the language itself inside parentheses. -/
theorem formula_eq_reader : formula = Level.formula.reader formula := by
  let step (p : Reader Formula) : Reader Formula := Level.formula.reader p
  have hunfold : fix step = step (fix step) :=
    fix_unfold (fun _ hp => orderly_reader hp .formula)
      fun _ _ _ hp h => agree_reader h hp .formula
  exact formula_eq.trans (hunfold.trans (congrArg step formula_eq.symm))

theorem chain_eq_mismatch (h : chain p (joining <$> ℓ.operatorReader) s = .error (.mismatch m)) :
    p s = .error (.mismatch m) := by
  rcases bind_eq_error_iff.mp h with h | ⟨first, t, -, h⟩
  · exact h
  · rcases bind_eq_error_iff.mp h with h | ⟨others, t, -, h⟩
    · exact absurd rfl (many_eq_error h m)
    · cases h

theorem single_eq_mismatch (h : single p ℓ.operatorReader q s = .error (.mismatch m)) :
    p s = .error (.mismatch m) := by
  rcases bind_eq_error_iff.mp h with h | ⟨left, t, -, h⟩
  · exact h
  · rcases bind_eq_error_iff.mp h with h | ⟨found, t, -, h⟩
    · exact absurd rfl ((optional_eq_error h).2 m)
    · cases found <;> cases h

/-- The mismatch of a level is that of the next tighter one. -/
theorem reader_eq_mismatch (h : ℓ.reader language s = .error (.mismatch m)) :
    ℓ.next.reader language s = .error (.mismatch m) := by
  induction ℓ using Level.induction with
  | atom => exact h
  | chain ℓ hℓ _ =>
      rw [Level.reader_of_isChain hℓ] at h
      exact chain_eq_mismatch h
  | relational _ =>
      change relational language s = _ at h
      rw [relational_eq] at h
      exact single_eq_mismatch h
  | unary _ =>
      change unary language s = _ at h
      rw [unary_apply] at h
      exact choice_eq_mismatch [_, _, _] h
  | implication _ =>
      change implication language s = _ at h
      rw [implication_apply] at h
      exact single_eq_mismatch h

theorem identifier_eq_error (h : identifier s = .error e) : e = .mismatch s := by
  cases s with
  | nil =>
      cases h
      rfl
  | cons c rest =>
      simp only [identifier] at h
      split at h <;> cases h
      rfl

/-- Where no variable is read, none begins. -/
theorem variableName_eq_mismatch (h : variableName s = .error (.mismatch m)) : m = s := by
  rcases bind_eq_error_iff.mp h with h | ⟨first, t, -, h⟩
  · cases filterMap_eq_error (fun _ => identifier_eq_error) h
    rfl
  · rcases bind_eq_error_iff.mp h with h | ⟨others, t, -, h⟩
    · exact absurd rfl (many_eq_error h m)
    · cases h

/-- The mismatch of an atom is that of a variable, the last alternative. -/
theorem atom_eq_mismatch (h : atom language s = .error (.mismatch m)) : m = afterBlanks s := by
  have hvariable := choice_eq_mismatch [_, _, _] h
  exact variableName_eq_mismatch (token_eq_error_iff.mp (map_eq_error_iff.mp hvariable))

end SignalLogic.Grammar
