import SignalLogic.Proofs.Grammar.Lexing

/-!
# The grammar without the order of bounds

The same grammar as that of formulas, except that the bounds of an interval may come in any
order. An inverted interval belongs to no formula, so nothing is formed here. Instead the
intervals of a text are listed from left to right. Every text from which a formula is derived
is admitted.
-/

namespace SignalLogic.Grammar

/-- An interval as it stands in a text: its bounds in whatever order, and the text behind its
opening bracket. -/
structure Bracket where
  lower : Offset
  upper : Endpoint
  rest : List Char

/-- The interval stands at the beginning of the first text, perhaps behind blanks, and the second
text follows it. -/
def Bracket.Reads (w : Bracket) (s r : List Char) : Prop :=
  Blanks s ('[' :: w.rest) ∧ Ends w.lower w.upper w.rest r

/-- The operators between the operands of a level, without their backends. -/
def Level.signs (ℓ : Level) : List (Token × Operator) :=
  ℓ.operators.map fun entry => (entry.1, entry.2.operator)

/-- The operators before an operand, without their backends. -/
def leadingSigns : List (Token × Operator) :=
  leadingOperators.map fun entry => (entry.1, entry.2.operator)

/-- The token of an operator of the table; behind one that accepts an interval there may be
one. -/
inductive Sign (table : List (Token × Operator)) : List Bracket → List Char → List Char → Prop
  | plain {t op s r} (h : (t, op) ∈ table) (ht : Spaced t.Reads s r) : Sign table [] s r
  | windowed {t op w s m r} (h : (t, op) ∈ table) (hop : op.acceptsInterval = true)
      (ht : Spaced t.Reads s m) (hw : w.Reads m r) : Sign table [w] s r

/-- A whole phrase of a level, or what may follow in a chain of operators. -/
inductive Shape where
  | whole (ℓ : Level)
  | further (ℓ : Level)

/-- The level of a phrase or of a chain. -/
def Shape.level : Shape → Level
  | whole ℓ => ℓ
  | further ℓ => ℓ

/-- What a phrase is apart from formulas. -/
def Phrase.shape : Phrase → Shape
  | .whole ℓ => .whole ℓ
  | .further ℓ _ => .further ℓ

/-- A phrase of the shape stands at the beginning of the first text and the second text follows
it; the intervals of the phrase are listed from left to right. -/
inductive Admits : Shape → List Bracket → List Char → List Char → Prop
  /-- A number is an atom. -/
  | number {x s r} (h : Spaced (Number x) s r) : Admits (.whole .atom) [] s r
  /-- A variable is an atom. -/
  | reference {v s r} (h : Spaced (Reference v) s r) : Admits (.whole .atom) [] s r
  /-- A phrase in parentheses is an atom. -/
  | parentheses {ws s m m' r} (ho : Spaced (Token.symbol "(").Reads s m)
      (hf : Admits (.whole .formula) ws m m') (hc : Spaced (Token.symbol ")").Reads m' r) :
      Admits (.whole .atom) ws s r
  /-- An absolute value is an atom. -/
  | abs {ws s s' m m' r} (ha : Spaced (Token.word "abs").Reads s s')
      (ho : Spaced (Token.symbol "(").Reads s' m) (hf : Admits (.whole .formula) ws m m')
      (hc : Spaced (Token.symbol ")").Reads m' r) : Admits (.whole .atom) ws s r
  /-- A chain begins with an operand. -/
  | chain {ℓ ws ws' s m r} (hℓ : ℓ.isChain = true) (hf : Admits (.whole ℓ.next) ws s m)
      (hg : Admits (.further ℓ) ws' m r) : Admits (.whole ℓ) (ws ++ ws') s r
  /-- A chain may end after each operand. -/
  | finish {ℓ s} : Admits (.further ℓ) [] s s
  /-- A chain may go on with an operator and an operand. -/
  | extend {ℓ vs ws ws' s m m' r} (ho : Sign ℓ.signs vs s m)
      (hg : Admits (.whole ℓ.next) ws m m') (hk : Admits (.further ℓ) ws' m' r) :
      Admits (.further ℓ) (vs ++ (ws ++ ws')) s r
  /-- A comparison has two operands. -/
  | comparison {vs ws ws' s m m' r} (hf : Admits (.whole .additive) ws s m)
      (ho : Sign Level.relational.signs vs m m') (hg : Admits (.whole .additive) ws' m' r) :
      Admits (.whole .relational) (ws ++ (vs ++ ws')) s r
  /-- An implication is associated to the right. -/
  | implication {vs ws ws' s m m' r} (hf : Admits (.whole .disjunction) ws s m)
      (ho : Sign Level.implication.signs vs m m') (hg : Admits (.whole .implication) ws' m' r) :
      Admits (.whole .implication) (ws ++ (vs ++ ws')) s r
  /-- Operators before an operand may be repeated. -/
  | leading {vs ws s m r} (ho : Sign leadingSigns vs s m) (hf : Admits (.whole .unary) ws m r) :
      Admits (.whole .unary) (vs ++ ws) s r
  /-- The other levels need no operator. -/
  | tighter {ℓ ws s r} (hℓ : ℓ = .implication ∨ ℓ = .unary ∨ ℓ = .relational)
      (hf : Admits (.whole ℓ.next) ws s r) : Admits (.whole ℓ) ws s r

variable {s m r : List Char} {ℓ : Level} {f : Formula} {ws : List Bracket}

/-- What is admitted at a level is admitted at the next looser one. -/
theorem Admits.loosen (ℓ : Level) (h : Admits (.whole ℓ.next) ws s r) :
    Admits (.whole ℓ) ws s r := by
  have honly (hℓ : ℓ.isChain = true) : Admits (.whole ℓ) ws s r := by
    have hchain := Admits.chain hℓ h .finish
    rwa [List.append_nil] at hchain
  cases ℓ with
  | implication | unary | relational => exact .tighter (by decide) h
  | atom => exact h
  | _ => exact honly rfl

/-- A window is an interval with its bounds in order. -/
theorem Window.exists_bracket {i : Interval} (h : Window i s r) :
    ∃ w : Bracket, w.Reads s r := by
  obtain ⟨s₁, s₂, s₃, s₄, ⟨s', r', hs, rfl, hr⟩, ⟨t, t', ht, hlower, ht'⟩, h⟩ := h
  exact ⟨⟨i.lower, i.upper, r'⟩, hs, s₂, s₃, s₄, ⟨t, t', hr.trans ht, hlower, ht'⟩, h⟩

theorem Between.exists_sign {op : BinaryOp} (h : Between ℓ op s r) :
    ∃ vs, Sign ℓ.signs vs s r := by
  cases h with
  | plain h ht => exact ⟨[], .plain (List.mem_map_of_mem h) ht⟩
  | windowed h ht hi =>
      obtain ⟨w, hw⟩ := hi.exists_bracket
      exact ⟨[w], .windowed (List.mem_map_of_mem h) rfl ht hw⟩

theorem Leading.exists_sign {op : UnaryOp} (h : Leading op s r) :
    ∃ vs, Sign leadingSigns vs s r := by
  cases h with
  | plain h ht => exact ⟨[], .plain (List.mem_map_of_mem h) ht⟩
  | windowed h ht hi =>
      obtain ⟨w, hw⟩ := hi.exists_bracket
      exact ⟨[w], .windowed (List.mem_map_of_mem h) rfl ht hw⟩

/-- The grammar admits every text from which a formula is derived. -/
theorem Derives.admits {phrase : Phrase} (h : Derives phrase f s r) :
    ∃ ws, Admits phrase.shape ws s r := by
  induction h with
  | number h => exact ⟨[], .number h⟩
  | reference h => exact ⟨[], .reference h⟩
  | parentheses ho _ hc ih =>
      obtain ⟨ws, hf⟩ := ih
      exact ⟨ws, .parentheses ho hf hc⟩
  | abs ha ho _ hc ih =>
      obtain ⟨ws, hf⟩ := ih
      exact ⟨ws, .abs ha ho hf hc⟩
  | chain hℓ _ _ ihf ihg =>
      obtain ⟨ws, hf⟩ := ihf
      obtain ⟨ws', hg⟩ := ihg
      exact ⟨ws ++ ws', .chain hℓ hf hg⟩
  | finish => exact ⟨[], .finish⟩
  | extend ho _ _ ihg ihk =>
      obtain ⟨vs, ho⟩ := ho.exists_sign
      obtain ⟨ws, hg⟩ := ihg
      obtain ⟨ws', hk⟩ := ihk
      exact ⟨vs ++ (ws ++ ws'), .extend ho hg hk⟩
  | comparison _ ho _ ihf ihg =>
      obtain ⟨ws, hf⟩ := ihf
      obtain ⟨vs, ho⟩ := ho.exists_sign
      obtain ⟨ws', hg⟩ := ihg
      exact ⟨ws ++ (vs ++ ws'), .comparison hf ho hg⟩
  | implication _ ho _ ihf ihg =>
      obtain ⟨ws, hf⟩ := ihf
      obtain ⟨vs, ho⟩ := ho.exists_sign
      obtain ⟨ws', hg⟩ := ihg
      exact ⟨ws ++ (vs ++ ws'), .implication hf ho hg⟩
  | leading ho _ ih =>
      obtain ⟨vs, ho⟩ := ho.exists_sign
      obtain ⟨ws, hf⟩ := ih
      exact ⟨vs ++ ws, .leading ho hf⟩
  | tighter hℓ _ ih =>
      obtain ⟨ws, hf⟩ := ih
      exact ⟨ws, .tighter hℓ hf⟩

end SignalLogic.Grammar
