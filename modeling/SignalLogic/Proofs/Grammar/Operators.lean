import SignalLogic.Proofs.Grammar.Literals
import SignalLogic.Proofs.Grammar.Unchecked

/-!
# Reading operators

The readers of all operators are put into one form: the token is looked up in a table,
and after a temporal operator a window may be read. In this form each reader is held
against the grammar of its operators, both ways.
-/

namespace SignalLogic.Grammar

open Reader

variable {α : Type} {s m r : List Char} {ℓ : Level}

/-- Read a window after an operator between operands, if the operator may have one. -/
def withWindow : BinaryOp → Reader BinaryOp
  | .temporal op _ => .temporal op <$> optional interval
  | op => pure op

/-- Read a window after an operator before an operand, if the operator may have one. -/
def withLeadingWindow : UnaryOp → Reader UnaryOp
  | .temporal op _ => .temporal op <$> optional interval
  | op => pure op

/-- The reader of the operators between the operands of a level. -/
def Level.operatorReader (ℓ : Level) : Reader BinaryOp :=
  tokens ℓ.operators >>= withWindow

/-- The reader of the operators of a table before an operand. -/
def leadingReader (table : List (Token × UnaryOp)) : Reader UnaryOp :=
  tokens table >>= withLeadingWindow

/-- An operator between operands makes a fresh node of them. -/
def joining (op : BinaryOp) (left right : Formula) : Formula :=
  .binary op left right none

/-- A node of an operator before an operand. -/
def leading (table : List (Token × UnaryOp)) (operand : Reader Formula) : Reader Formula := do
  let op ← leadingReader table
  return .unary op (← operand) none

/-- One operator between two operands at most. -/
def single (first : Reader Formula) (operator : Reader BinaryOp) (second : Reader Formula) :
    Reader Formula := do
  let left ← first
  match ← optional (do return (← operator, ← second)) with
  | some (op, right) => return joining op left right
  | none => return left

theorem operatorReader_eq (build : α → BinaryOp) (table : List (Token × α))
    (h : ℓ.operators = table.map fun entry => (entry.1, build entry.2)) :
    ℓ.operatorReader = tokens table >>= fun a => withWindow (build a) := by
  rw [Level.operatorReader, h, ← map_tokens, bind_map_left]

/-- Operators of one family have no windows. -/
theorem between_eq (ℓ : Level) (build : α → BinaryOp) (table : List (Token × α))
    (h : ℓ.operators = table.map fun entry => (entry.1, build entry.2))
    (hbuild : ∀ a, withWindow (build a) = pure (build a)) :
    between (fun a => joining (build a)) (table.map fun entry => giving entry.1.reader entry.2) =
      joining <$> ℓ.operatorReader := by
  rw [operatorReader_eq build table h]
  simp only [hbuild, bind_pure_comp, Functor.map_map]
  rfl

theorem multiplicative_eq (formula : Reader Formula) :
    multiplicative formula =
      chain (atom formula) (joining <$> Level.multiplicative.operatorReader) :=
  congrArg (chain _) (between_eq .multiplicative (BinaryOp.arithmetic · .reference)
    [(.symbol "*", .multiplication), (.symbol "/", .division)] rfl fun _ => rfl)

theorem additive_eq (formula : Reader Formula) :
    additive formula =
      chain (multiplicative formula) (joining <$> Level.additive.operatorReader) :=
  congrArg (chain _) (between_eq .additive (BinaryOp.arithmetic · .reference)
    [(.symbol "+", .addition), (.symbol "-", .subtraction)] rfl fun _ => rfl)

theorem binaryTemporal_eq (formula : Reader Formula) :
    binaryTemporal formula =
      chain (unary formula) (joining <$> Level.binaryTemporal.operatorReader) := by
  rw [operatorReader_eq (BinaryOp.temporal · none)
    [(.word "since", .since), (.word "until", .until), (.word "precedes", .precedes)] rfl]
  simp only [withWindow, map_bind, Functor.map_map]
  simp only [binaryTemporal, bind_pure_comp]
  rfl

theorem conjunction_eq (formula : Reader Formula) :
    conjunction formula =
      chain (binaryTemporal formula) (joining <$> Level.conjunction.operatorReader) :=
  congrArg (chain _) (between_eq .conjunction BinaryOp.logic
    [(.word "and", .conjunction), (.symbol "&&", .conjunction)] rfl fun _ => rfl)

theorem disjunction_eq (formula : Reader Formula) :
    disjunction formula =
      chain (conjunction formula) (joining <$> Level.disjunction.operatorReader) :=
  congrArg (chain _) (between_eq .disjunction BinaryOp.logic
    [(.word "or", .disjunction), (.symbol "||", .disjunction)] rfl fun _ => rfl)

theorem formula_eq :
    formula = fix fun formula =>
      chain (implication formula) (joining <$> Level.formula.operatorReader) :=
  congrArg fix (funext fun _ => congrArg (chain _) (between_eq .formula BinaryOp.logic
    [(.symbol "<->", .equivalence), (.word "iff", .equivalence), (.word "xor", .exclusion)]
    rfl fun _ => rfl))

/-- The tokens of comparisons are read between blanks, as symbols are. -/
theorem comparison_eq :
    (BinaryOp.comparison · .reference) <$> comparison = Level.relational.operatorReader := by
  rw [operatorReader_eq (BinaryOp.comparison · .reference)
    [(.symbol "<=", .atMost), (.symbol ">=", .atLeast), (.symbol "==", .equal),
      (.symbol "!=", .different), (.symbol "<", .less), (.symbol ">", .greater)] rfl]
  simp only [withWindow, bind_pure_comp]
  simp only [comparison, token_choice, giving_eq_map, List.map_cons, List.map_nil, token_map,
    tokens]
  rfl

theorem relational_eq (formula : Reader Formula) :
    relational formula =
      single (additive formula) Level.relational.operatorReader (additive formula) := by
  rw [← comparison_eq]
  have hpair : (do return (← (BinaryOp.comparison · .reference) <$> comparison, ← additive formula)) =
      Prod.map (BinaryOp.comparison · .reference) id <$>
        (do return (← comparison, ← additive formula) : Reader (Comparison × Formula)) := by
    simp
  rw [relational, single, hpair]
  simp only [← map_optional, bind_map_left]
  refine bind_congr fun left => bind_congr fun found => ?_
  cases found with
  | none => rfl
  | some pair => rfl

theorem implication_eq (formula : Reader Formula) :
    implication formula = fix fun implication =>
      single (disjunction formula) Level.implication.operatorReader implication := by
  refine congrArg fix (funext fun implication => ?_)
  have htokens : tokens [(.symbol "->", ()), (.word "implies", ())] =
      choice [symbol "->", keyword "implies"] := by
    simp [tokens, giving, Token.reader]
  have hpair : (do return (← Level.implication.operatorReader, ← implication)) =
      Prod.mk (.logic .implication) <$>
        (do choice [symbol "->", keyword "implies"]; implication : Reader Formula) := by
    rw [operatorReader_eq (fun _ => .logic .implication)
      [(.symbol "->", ()), (.word "implies", ())] rfl, htokens]
    simp [withWindow]
  rw [single, hpair]
  simp only [← map_optional, bind_map_left]
  refine bind_congr fun left => bind_congr fun found => ?_
  cases found with
  | none => rfl
  | some right => rfl

/-- The right operand of an implication is an implication in a shorter text. -/
theorem implication_apply (language : Reader Formula) (s : List Char) :
    implication language s = single (disjunction language) Level.implication.operatorReader
      (within s.length (implication language)) s := by
  rw [implication_eq]
  exact fix_eq _ s

/-- The readers of the operators before an operand, family by family. -/
theorem leading_eq (build : α → UnaryOp) (table : List (Token × α)) (operand : Reader Formula) :
    leading (table.map fun entry => (entry.1, build entry.2)) operand =
      (do
        let a ← tokens table
        let op ← withLeadingWindow (build a)
        return .unary op (← operand) none) := by
  rw [leading, leadingReader, ← map_tokens]
  simp only [bind_map_left, bind_assoc]

theorem unary_eq (formula : Reader Formula) :
    unary formula = fix fun unary => choice
      [leading negations unary, leading edges unary, leading temporals unary,
        relational formula] := by
  refine congrArg fix (funext fun unary => ?_)
  have hnegations : leading negations unary = do
      choice [keyword "not", symbol "!"]
      return (← unary).not := by
    have htokens : tokens [(.word "not", ()), (.symbol "!", ())] =
        choice [keyword "not", symbol "!"] := by
      simp [tokens, giving, Token.reader]
    refine (leading_eq (fun _ => .not) [(.word "not", ()), (.symbol "!", ())] unary).trans ?_
    rw [htokens]
    rfl
  have hedges : leading edges unary = do
      let op ← choice [giving (keyword "rise") Edge.rise, giving (keyword "fall") Edge.fall]
      return .edge op (← unary) :=
    leading_eq .edge [(.word "rise", .rise), (.word "fall", .fall)] unary
  have htemporals : leading temporals unary = do
      let op ← choice [
        giving (keyword "once") UnaryTemporal.once,
        giving (keyword "historically") UnaryTemporal.historically,
        giving (keyword "eventually") UnaryTemporal.eventually,
        giving (keyword "always") UnaryTemporal.always]
      let window ← optional interval
      return .unaryTemporal op window (← unary) := by
    refine (leading_eq (.temporal · none) [(.word "once", .once),
      (.word "historically", .historically), (.word "eventually", .eventually),
      (.word "always", .always)] unary).trans ?_
    simp only [withLeadingWindow, bind_map_left]
    rfl
  rw [hnegations, hedges, htemporals]

/-- The operand of an operator before it may begin with another one, in a shorter text. -/
theorem unary_apply (language : Reader Formula) (s : List Char) :
    unary language s = choice
      [leading negations (within s.length (unary language)),
        leading edges (within s.length (unary language)),
        leading temporals (within s.length (unary language)), relational language] s := by
  rw [unary_eq]
  exact fix_eq _ s

theorem Level.ordered_operators (ℓ : Level) : Ordered ℓ.operators := by
  cases ℓ <;> decide

theorem Level.isSolid_of_mem {t : Token} {op : BinaryOp} (h : (t, op) ∈ ℓ.operators) :
    t.isSolid = true := by
  have hall : ∀ entry ∈ ℓ.operators, entry.1.isSolid = true := by
    cases ℓ <;> decide
  exact hall _ h

/-- The tables hold every temporal operator without a window. -/
theorem Level.window?_of_mem {t : Token} {op : BinaryOp} (h : (t, op) ∈ ℓ.operators) :
    op.window? = none := by
  have hall : ∀ entry ∈ ℓ.operators, entry.2.window? = none := by
    cases ℓ <;> decide
  exact hall _ h

theorem isSolid_of_mem_leading {t : Token} {op : UnaryOp} (h : (t, op) ∈ leadingOperators) :
    t.isSolid = true := by
  have hall : ∀ entry ∈ leadingOperators, entry.1.isSolid = true := by decide
  exact hall _ h

theorem window?_of_mem_leading {t : Token} {op : UnaryOp} (h : (t, op) ∈ leadingOperators) :
    op.window? = none := by
  have hall : ∀ entry ∈ leadingOperators, entry.2.window? = none := by decide
  exact hall _ h

theorem Level.exists_of_mem_signs {t : Token} {op : Operator} (h : (t, op) ∈ ℓ.signs) :
    ∃ op', (t, op') ∈ ℓ.operators ∧ op'.operator = op := by
  obtain ⟨⟨t, op'⟩, hmem, heq⟩ := List.mem_map.mp h
  cases heq
  exact ⟨op', hmem, rfl⟩

theorem exists_of_mem_leadingSigns {t : Token} {op : Operator} (h : (t, op) ∈ leadingSigns) :
    ∃ op', (t, op') ∈ leadingOperators ∧ op'.operator = op := by
  obtain ⟨⟨t, op'⟩, hmem, heq⟩ := List.mem_map.mp h
  cases heq
  exact ⟨op', hmem, rfl⟩

theorem Level.isSolid_of_mem_signs {t : Token} {op : Operator} (h : (t, op) ∈ ℓ.signs) :
    t.isSolid = true := by
  obtain ⟨op', hmem, -⟩ := Level.exists_of_mem_signs h
  exact Level.isSolid_of_mem hmem

theorem isSolid_of_mem_leadingSigns {t : Token} {op : Operator} (h : (t, op) ∈ leadingSigns) :
    t.isSolid = true := by
  obtain ⟨op', hmem, -⟩ := exists_of_mem_leadingSigns h
  exact isSolid_of_mem_leading hmem

/-- An interval begins with a bracket. -/
theorem Bracket.Reads.head {w : Bracket} (h : w.Reads s r) : afterBlanks s = '[' :: w.rest :=
  h.1.afterBlanks_eq.trans (afterBlanks_cons_of_not (by decide) _)

theorem Bracket.Reads.length_lt {w : Bracket} (h : w.Reads s r) :
    (afterBlanks r).length < (afterBlanks s).length := by
  obtain ⟨s₁, s₂, s₃, hlower, hcomma, hupper, hclose⟩ := h.2
  have hopen := length_afterBlanks_le w.rest
  have h₁ := hlower.length_lt (solid_bound _)
  have h₂ := hcomma.length_lt (Token.solid_reads (by decide))
  have h₃ := hupper.length_lt (solid_bound _)
  have h₄ := hclose.length_lt (Token.solid_reads (by decide))
  rw [h.head, List.length_cons]
  omega

/-- Every operator takes something off the text. -/
theorem Sign.length_lt {table : List (Token × Operator)} {vs : List Bracket}
    (htable : ∀ {t op}, (t, op) ∈ table → t.isSolid = true) (h : Sign table vs s r) :
    (afterBlanks r).length < (afterBlanks s).length := by
  cases h with
  | plain hmem ht => exact ht.length_lt (Token.solid_reads (htable hmem))
  | windowed hmem _ ht hw =>
      exact hw.length_lt.trans (ht.length_lt (Token.solid_reads (htable hmem)))

theorem Between.length_lt {op : BinaryOp} (h : Between ℓ op s r) :
    (afterBlanks r).length < (afterBlanks s).length := by
  obtain ⟨vs, h⟩ := h.exists_sign
  exact h.length_lt Level.isSolid_of_mem_signs

theorem Leading.length_lt {op : UnaryOp} (h : Leading op s r) :
    (afterBlanks r).length < (afterBlanks s).length := by
  obtain ⟨vs, h⟩ := h.exists_sign
  exact h.length_lt isSolid_of_mem_leadingSigns

/-- Either a window is read, or there is none and nothing is read. -/
theorem optional_interval_eq_ok {w : Option Interval} (hs : afterBlanks s = s)
    (h : optional interval s = .ok (w, r)) :
    ((∃ i, w = some i ∧ Window i s r) ∨ w = none ∧ r = s) ∧ afterBlanks r = r := by
  rcases optional_eq_ok h with ⟨i, rfl, hi⟩ | ⟨rfl, rfl⟩
  · exact ⟨.inl ⟨i, rfl, (window_of_interval hi).1⟩, (window_of_interval hi).2⟩
  · exact ⟨.inr ⟨rfl, rfl⟩, hs⟩

theorem between_of_operatorReader {op : BinaryOp} (h : ℓ.operatorReader s = .ok (op, r)) :
    Between ℓ op s r ∧ afterBlanks r = r := by
  obtain ⟨op', m, htoken, hwindow⟩ := bind_eq_ok_iff.mp h
  obtain ⟨t, hmem, ht, hm⟩ := spaced_of_tokens htoken
  cases op' with
  | temporal op' w =>
      obtain rfl : w = none := Level.window?_of_mem hmem
      obtain ⟨w, hw, rfl⟩ := map_eq_ok_iff.mp hwindow
      obtain ⟨⟨i, rfl, hi⟩ | ⟨rfl, rfl⟩, hr⟩ := optional_interval_eq_ok hm hw
      · exact ⟨.windowed hmem ht hi, hr⟩
      · exact ⟨.plain hmem ht, hr⟩
  | arithmetic | comparison | logic =>
      obtain ⟨rfl, rfl⟩ := pure_eq_ok_iff.mp hwindow
      exact ⟨.plain hmem ht, hm⟩

theorem leading_of_leadingReader {table : List (Token × UnaryOp)} {op : UnaryOp}
    (htable : table ⊆ leadingOperators) (h : leadingReader table s = .ok (op, r)) :
    Leading op s r ∧ afterBlanks r = r := by
  obtain ⟨op', m, htoken, hwindow⟩ := bind_eq_ok_iff.mp h
  obtain ⟨t, hmem, ht, hm⟩ := spaced_of_tokens htoken
  cases op' with
  | temporal op' w =>
      obtain rfl : w = none := window?_of_mem_leading (htable hmem)
      obtain ⟨w, hw, rfl⟩ := map_eq_ok_iff.mp hwindow
      obtain ⟨⟨i, rfl, hi⟩ | ⟨rfl, rfl⟩, hr⟩ := optional_interval_eq_ok hm hw
      · exact ⟨.windowed (htable hmem) ht hi, hr⟩
      · exact ⟨.plain (htable hmem) ht, hr⟩
  | abs | not | edge =>
      obtain ⟨rfl, rfl⟩ := pure_eq_ok_iff.mp hwindow
      exact ⟨.plain (htable hmem) ht, hm⟩

/-- An operand may begin here after blanks: with a digit, perhaps after a minus sign,
with a letter or an underscore, with a parenthesis or with an exclamation mark. -/
def Opens (s : List Char) : Prop :=
  ∃ c t, afterBlanks s = c :: t ∧
    (c.isDigit = true ∨ isSegmentHead c = true ∨ c = '(' ∨ c = '!' ∨
      c = '-' ∧ ∃ d u, t = d :: u ∧ d.isDigit = true)

namespace Opens

/-- The first character of an operand. -/
theorem head {c : Char} {t : List Char} (h : Opens s) (hs : afterBlanks s = c :: t) :
    c.isDigit = true ∨ isSegmentHead c = true ∨ c = '(' ∨ c = '!' ∨ c = '-' := by
  obtain ⟨c', t', hs', hc⟩ := h
  rw [hs] at hs'
  cases hs'
  tauto

/-- No operand begins with an equals sign or a bracket. -/
theorem ne_of_head {c : Char} {t : List Char} (h : Opens s) (hs : afterBlanks s = c :: t) :
    c ≠ '=' ∧ c ≠ '[' := by
  constructor <;> rintro rfl <;> exact absurd (h.head hs) (by decide)

theorem optional_interval (h : Opens s) :
    optional interval (afterBlanks s) = .ok (none, afterBlanks s) := by
  have hne : ∀ t, afterBlanks (afterBlanks s) ≠ '[' :: t := by
    intro t ht
    rw [afterBlanks_afterBlanks] at ht
    exact (h.ne_of_head ht).2 rfl
  obtain ⟨m, hm⟩ := interval_mismatch hne
  exact optional_of_mismatch hm

end Opens

/-- What comes after the token of an operator, which is an operand or a window, begins
with an ordinary character that is no equals sign. -/
theorem head_after_token (hr : Opens r ∨ ∃ u, afterBlanks r = '[' :: u) {c : Char}
    {t : List Char} (hs : r = c :: t) : c.toNat < 128 ∧ c ≠ '=' := by
  refine head_of_afterBlanks (p := fun c => c.toNat < 128 ∧ c ≠ '=') ?_ ?_ hs
  · intro c hc
    refine ⟨?_, ?_⟩
    · rw [isWhitespace_iff] at hc
      omega
    · rintro rfl
      exact absurd hc (by decide)
  · intro c t hs
    rcases hr with hr | ⟨u, hu⟩
    · refine ⟨?_, (hr.ne_of_head hs).1⟩
      rcases hr.head hs with hc | hc | rfl | rfl | rfl
      · rw [isDigit_iff] at hc
        omega
      · rw [isSegmentHead_iff] at hc
        omega
      all_goals decide
    · rw [hs] at hu
      cases hu
      decide

/-- The token of an operator is found in its table. -/
theorem tokens_of_reads {table : List (Token × α)} {t : Token} {a : α}
    (htable : Ordered table) (hmem : (t, a) ∈ table) (ht : t.isSolid = true)
    (hr : Opens r ∨ ∃ u, afterBlanks r = '[' :: u) (h : Spaced t.Reads s r) :
    tokens table (afterBlanks s) = .ok (a, afterBlanks r) :=
  tokens_of_spaced htable hmem ht (fun _ _ hs => (head_after_token hr hs).1)
    (fun _ _ hs => (head_after_token hr hs).2) (h.afterBlanks (Token.solid_reads ht))

theorem operatorReader_of_between {op : BinaryOp} (h : Between ℓ op s r) (hr : Opens r) :
    ℓ.operatorReader (afterBlanks s) = .ok (op, afterBlanks r) := by
  cases h with
  | plain hmem ht =>
      have htoken := tokens_of_reads ℓ.ordered_operators hmem (Level.isSolid_of_mem hmem)
        (.inl hr) ht
      refine bind_eq_ok_iff.mpr ⟨op, _, htoken, ?_⟩
      cases op with
      | temporal op w =>
          obtain rfl : w = none := Level.window?_of_mem hmem
          exact map_eq_ok_iff.mpr ⟨none, hr.optional_interval, rfl⟩
      | arithmetic | comparison | logic => rfl
  | windowed hmem ht hi =>
      have htoken := tokens_of_reads ℓ.ordered_operators hmem (Level.isSolid_of_mem hmem)
        (.inr hi.head) ht
      refine bind_eq_ok_iff.mpr ⟨_, _, htoken, ?_⟩
      exact map_eq_ok_iff.mpr ⟨_, optional_of_ok (interval_of_window hi.afterBlanks), rfl⟩

/-- The table that holds the token of an operator reads the operator. -/
theorem leadingReader_of_plain {table : List (Token × UnaryOp)} {t : Token} {op : UnaryOp}
    (htable : Ordered table) (hsub : table ⊆ leadingOperators) (hmem : (t, op) ∈ table)
    (h : Spaced t.Reads s r) (hr : Opens r) :
    leadingReader table (afterBlanks s) = .ok (op, afterBlanks r) := by
  have htoken := tokens_of_reads htable hmem (isSolid_of_mem_leading (hsub hmem)) (.inl hr) h
  refine bind_eq_ok_iff.mpr ⟨op, _, htoken, ?_⟩
  cases op with
  | temporal op w =>
      obtain rfl : w = none := window?_of_mem_leading (hsub hmem)
      exact map_eq_ok_iff.mpr ⟨none, hr.optional_interval, rfl⟩
  | abs | not | edge => rfl

theorem leadingReader_of_windowed {table : List (Token × UnaryOp)} {t : Token}
    {op : UnaryTemporal} {i : Interval} (htable : Ordered table)
    (hsub : table ⊆ leadingOperators) (hmem : (t, .temporal op none) ∈ table)
    (h : Spaced t.Reads s m) (hi : Window i m r) :
    leadingReader table (afterBlanks s) = .ok (.temporal op (some i), afterBlanks r) := by
  have htoken := tokens_of_reads htable hmem (isSolid_of_mem_leading (hsub hmem))
    (.inr hi.head) h
  refine bind_eq_ok_iff.mpr ⟨_, _, htoken, ?_⟩
  exact map_eq_ok_iff.mpr ⟨_, optional_of_ok (interval_of_window hi.afterBlanks), rfl⟩

/-- A table is passed over where none of its tokens is read. -/
theorem leading_mismatch {table : List (Token × UnaryOp)} {operand : Reader Formula}
    (h : ∀ entry ∈ table, ∃ m, entry.1.reader s = .error (.mismatch m)) :
    ∃ m, leading table operand s = .error (.mismatch m) := by
  obtain ⟨m, hm⟩ := tokens_mismatch h
  exact ⟨m, bind_apply_error (bind_apply_error hm)⟩

/-- The tables before an operand are tried in order, and none that comes before the one that
holds a token is read in its place. -/
theorem exists_leading_table {t : Token} {op : UnaryOp} (hmem : (t, op) ∈ leadingOperators)
    (ht : Spaced t.Reads s m) (unary other : Reader Formula) :
    ∃ table before after, [leading negations unary, leading edges unary, leading temporals unary,
        other] = before ++ leading table unary :: after ∧
      Ordered table ∧ table ⊆ leadingOperators ∧ (t, op) ∈ table ∧
      ∀ q ∈ before, ∃ m, q (afterBlanks s) = .error (.mismatch m) := by
  have hsolid := isSolid_of_mem_leading hmem
  have hpassed {table : List (Token × UnaryOp)} (h : ∀ entry ∈ table, t.apart entry.1 = true) :
      ∃ m, leading table unary (afterBlanks s) = .error (.mismatch m) :=
    leading_mismatch fun entry hentry => Token.reader_mismatch_of_apart hsolid (h entry hentry)
      (ht.afterBlanks (Token.solid_reads hsolid))
  rcases List.mem_append.mp hmem with hmem | htemporal
  · rcases List.mem_append.mp hmem with hnegation | hedge
    · exact ⟨negations, [], _, rfl, by decide, by decide, hnegation, by simp⟩
    · have hapart : ∀ e ∈ edges, ∀ e' ∈ negations, e.1.apart e'.1 = true := by decide
      refine ⟨edges, [_], _, rfl, by decide, by decide, hedge, ?_⟩
      rintro q hq
      obtain rfl := List.mem_singleton.mp hq
      exact hpassed (hapart _ hedge)
  · have hapart : ∀ e ∈ temporals, ∀ e' ∈ negations ++ edges, e.1.apart e'.1 = true := by decide
    refine ⟨temporals, [_, _], _, rfl, by decide, by decide, htemporal, ?_⟩
    rintro q hq
    simp only [List.mem_cons, List.not_mem_nil, or_false] at hq
    rcases hq with rfl | rfl
    · exact hpassed fun e' he' => hapart _ htemporal e' (List.mem_append_left _ he')
    · exact hpassed fun e' he' => hapart _ htemporal e' (List.mem_append_right _ he')

/-- The right table is found, and the operator is read with its operand. -/
theorem choice_of_leading {op : UnaryOp} {f : Formula} {unary other : Reader Formula}
    {r' : List Char} (h : Leading op s r) (hr : Opens r)
    (hf : unary (afterBlanks r) = .ok (f, r')) :
    choice [leading negations unary, leading edges unary, leading temporals unary, other]
      (afterBlanks s) = .ok (.unary op f none, r') := by
  have hoperand {table : List (Token × UnaryOp)}
      (hop : leadingReader table (afterBlanks s) = .ok (op, afterBlanks r)) :
      leading table unary (afterBlanks s) = .ok (.unary op f none, r') :=
    bind_eq_ok_iff.mpr ⟨op, _, hop, bind_eq_ok_iff.mpr ⟨f, r', hf, rfl⟩⟩
  cases h with
  | plain hmem ht =>
      obtain ⟨table, before, after, hsplit, htable, hsub, hmem, hbefore⟩ :=
        exists_leading_table hmem ht unary other
      rw [hsplit]
      exact choice_append_cons before hbefore
        (hoperand (leadingReader_of_plain htable hsub hmem ht hr))
  | windowed hmem ht hi =>
      obtain ⟨table, before, after, hsplit, htable, hsub, hmem, hbefore⟩ :=
        exists_leading_table hmem ht unary other
      rw [hsplit]
      exact choice_append_cons before hbefore
        (hoperand (leadingReader_of_windowed htable hsub hmem ht hi))

end SignalLogic.Grammar
