import SignalLogic.Proofs.Grammar.Operators

/-!
# What comes before and after phrases

After a phrase comes nothing, a closing parenthesis or an operator of a looser level. A
reader of the level could take an operator of its own out of that only where the looser
operator begins with it, and then what is left of the looser operator is the beginning
of no operand. What a phrase begins with, in turn, tells which operators before an
operand it does not have.
-/

namespace SignalLogic.Grammar

open Reader

variable {α : Type} {s m r : List Char} {ℓ : Level}

/-- The levels in the order of their binding strength. -/
def Level.rank : Level → Nat
  | formula => 0
  | implication => 1
  | disjunction => 2
  | conjunction => 3
  | binaryTemporal => 4
  | unary => 5
  | relational => 6
  | additive => 7
  | multiplicative => 8
  | atom => 9

/-- Where operators stand between operands, these belong to a tighter level. -/
theorem Level.rank_lt_rank_next {t : Token} {op : BinaryOp} (h : (t, op) ∈ ℓ.operators) :
    ℓ.rank < ℓ.next.rank := by
  cases ℓ with
  | atom => cases h
  | _ => decide

theorem Level.rank_le_rank_next (ℓ : Level) : ℓ.rank ≤ ℓ.next.rank := by
  cases ℓ <;> decide

/-- What may come after a phrase of a level. -/
inductive Follows (ℓ : Level) (r : List Char) : Prop
  | nothing (h : afterBlanks r = [])
  | closing {t : List Char} (h : afterBlanks r = ')' :: t)
  | operator {ℓ' : Level} {t : Token} {op : BinaryOp} {r' : List Char}
      (hlt : ℓ'.rank < ℓ.rank) (h : (t, op) ∈ ℓ'.operators) (ht : Spaced t.Reads r r')

namespace Follows

theorem mono {ℓ' : Level} (hle : ℓ.rank ≤ ℓ'.rank) (h : Follows ℓ r) : Follows ℓ' r := by
  cases h with
  | nothing h => exact .nothing h
  | closing h => exact .closing h
  | operator hlt h ht => exact .operator (Nat.lt_of_lt_of_le hlt hle) h ht

theorem of_blanks (hb : Blanks m r) (h : Follows ℓ r) : Follows ℓ m := by
  cases h with
  | nothing h => exact .nothing (hb.afterBlanks_eq.trans h)
  | closing h => exact .closing (hb.afterBlanks_eq.trans h)
  | operator hlt h ht => exact .operator hlt h (ht.of_blanks hb)

theorem trimmed (h : Follows ℓ r) : Follows ℓ (afterBlanks r) := by
  cases h with
  | nothing h => exact .nothing ((afterBlanks_afterBlanks r).trans h)
  | closing h => exact .closing ((afterBlanks_afterBlanks r).trans h)
  | operator hlt h ht =>
      exact .operator hlt h (ht.afterBlanks (Token.solid_reads (Level.isSolid_of_mem h)))

theorem of_sign {ℓ' : Level} {vs : List Bracket} (hlt : ℓ'.rank < ℓ.rank)
    (h : Sign ℓ'.signs vs s r) : Follows ℓ s := by
  cases h with
  | plain hmem ht =>
      obtain ⟨op, hmem, -⟩ := Level.exists_of_mem_signs hmem
      exact .operator hlt hmem ht
  | windowed hmem _ ht _ =>
      obtain ⟨op, hmem, -⟩ := Level.exists_of_mem_signs hmem
      exact .operator hlt hmem ht

theorem of_between {ℓ' : Level} {op : BinaryOp} (hlt : ℓ'.rank < ℓ.rank)
    (h : Between ℓ' op s r) : Follows ℓ s := by
  obtain ⟨vs, h⟩ := h.exists_sign
  exact .of_sign hlt h

/-- No number and no variable goes on with what comes after a phrase. -/
theorem head {c : Char} {t : List Char} (h : Follows ℓ r) (hr : afterBlanks r = c :: t) :
    c.isDigit = false ∧ c ≠ '.' := by
  cases h with
  | nothing h =>
      rw [h] at hr
      cases hr
  | closing h =>
      rw [h] at hr
      cases hr
      decide
  | @operator ℓ' t' op _ _ hmem ht =>
      obtain ⟨m, hm, -⟩ := ht.exists_of_solid (Token.solid_reads (Level.isSolid_of_mem hmem))
      obtain ⟨d, ds, hd, -⟩ := Token.exists_chars_of_isSolid (Level.isSolid_of_mem hmem)
      rw [hm.eq_append, hd, List.cons_append] at hr
      cases hr
      exact Token.head_of_mem (p := fun c => c.isDigit = false ∧ c ≠ '.')
        (by cases ℓ' <;> decide) hmem hd

theorem numberEnd (h : Follows ℓ r) : NumberEnd r := by
  refine fun c t hr => head_of_afterBlanks
    (p := fun c => c.isDigit = false ∧ c ≠ '.') ?_ (fun c t hr => h.head hr) hr
  intro c hc
  refine ⟨isDigit_eq_false_of_isWhitespace hc, ?_⟩
  rintro rfl
  exact absurd hc (by decide)

theorem ne_dot (h : Follows ℓ r) (t : List Char) : r ≠ '.' :: t := by
  intro hr
  exact (h.numberEnd '.' t hr).2 rfl

end Follows

/-- What is left of a looser operator after a shorter one has been taken out of it. -/
def Blocked (s : List Char) : Prop :=
  ∃ t, afterBlanks s = '>' :: t ∨ afterBlanks s = '-' :: '>' :: t

/-- No window stands there. -/
theorem Blocked.optional_interval (h : Blocked s) :
    optional interval s = .ok (none, s) := by
  have hne : ∀ t, afterBlanks s ≠ '[' :: t := by
    obtain ⟨u, hu | hu⟩ := h <;> rw [hu] <;> rintro t ⟨⟩
  obtain ⟨m, hm⟩ := interval_mismatch hne
  exact optional_of_mismatch hm

/-- The operators of a level are told from those of a looser one, or leave the end of an
arrow of them. -/
theorem Level.apart_of_lt {ℓ' : Level} (hlt : ℓ'.rank < ℓ.rank) :
    ∀ e' ∈ ℓ'.operators, ∀ e ∈ ℓ.operators,
      e'.1.apart e.1 = true ∨ e'.1.chars = e.1.chars ++ ['>'] ∨
        e'.1.chars = e.1.chars ++ ['-', '>'] := by
  cases ℓ' <;> cases ℓ <;> revert hlt <;> decide

/-- A level never begins an operator with a parenthesis. -/
theorem Level.ne_closing_of_mem {t : Token} {op : BinaryOp} (h : (t, op) ∈ ℓ.operators)
    (u : List Char) : ¬ t.chars <+: ')' :: u := by
  obtain ⟨c, cs, hc, -⟩ := Token.exists_chars_of_isSolid (Level.isSolid_of_mem h)
  have hne : c ≠ ')' :=
    Token.head_of_mem (p := fun c => c ≠ ')') (by cases ℓ <;> decide) h hc
  rw [hc]
  rintro ⟨v, hv⟩
  exact hne (List.cons.inj hv).1

/-- After a phrase an operator of its level is read only out of a looser one. -/
theorem Follows.blocked_of_reads {t : Token} {op : BinaryOp} (h : Follows ℓ s)
    (hmem : (t, op) ∈ ℓ.operators) (ht : Spaced t.Reads s r) : Blocked r := by
  have hsolid := Level.isSolid_of_mem hmem
  obtain ⟨m, hm, hr⟩ := ht.exists_of_solid (Token.solid_reads hsolid)
  cases h with
  | nothing h =>
      obtain ⟨c, cs, hc, -⟩ := Token.exists_chars_of_isSolid hsolid
      rw [hm.eq_append, hc] at h
      cases h
  | @closing u h =>
      refine absurd ?_ (Level.ne_closing_of_mem hmem u)
      rw [← h, hm.eq_append]
      exact List.prefix_append _ _
  | @operator ℓ' t' op' r' hlt hmem' ht' =>
      obtain ⟨m', hm', -⟩ := ht'.exists_of_solid
        (Token.solid_reads (Level.isSolid_of_mem hmem'))
      have heq : t.chars ++ m = t'.chars ++ m' := hm.eq_append.symm.trans hm'.eq_append
      rcases Level.apart_of_lt hlt _ hmem' _ hmem with hap | hext | hext
      · exact absurd (heq ▸ List.prefix_append _ _) (Token.not_prefix_of_apart hap)
      · rw [hext, List.append_assoc, List.append_cancel_left_eq] at heq
        subst heq
        exact ⟨m', .inl (hr.afterBlanks_eq.symm.trans (afterBlanks_cons_of_not rfl m'))⟩
      · rw [hext, List.append_assoc, List.append_cancel_left_eq] at heq
        subst heq
        exact ⟨m', .inr (hr.afterBlanks_eq.symm.trans (afterBlanks_cons_of_not rfl _))⟩

/-- The table reader of a level either takes nothing off what comes after a phrase, or
leaves the rest of a looser operator. -/
theorem Follows.operatorReader (h : Follows ℓ s) :
    (∃ m, ℓ.operatorReader s = .error (.mismatch m)) ∨
      ∃ op r, ℓ.operatorReader s = .ok (op, r) ∧ afterBlanks r = r ∧ Blocked r := by
  rcases tokens_or_mismatch ℓ.operators s with ⟨op, m, hop⟩ | ⟨m, hm⟩
  · obtain ⟨t, hmem, ht, htrim⟩ := spaced_of_tokens hop
    have hblocked := h.blocked_of_reads hmem ht
    refine .inr ⟨op, m, bind_eq_ok_iff.mpr ⟨op, m, hop, ?_⟩, htrim, hblocked⟩
    cases op with
    | temporal op w =>
        obtain rfl : w = none := Level.window?_of_mem hmem
        exact map_eq_ok_iff.mpr ⟨none, hblocked.optional_interval, rfl⟩
    | arithmetic | comparison | logic => rfl
  · exact .inl ⟨m, bind_apply_error hm⟩

/-- What a phrase without an operator before it begins with. -/
inductive Begins (s : List Char) : Prop
  | number {x : Value} {m : List Char} (h : Spaced (Number x) s m)
  | reference {v : Variable} {m : List Char} (h : Spaced (Reference v) s m)
  | parenthesis {m : List Char} (h : Spaced (Token.symbol "(").Reads s m)
  | abs {m : List Char} (h : Spaced (Token.word "abs").Reads s m)

theorem Admits.begins {shape : Shape} {ws : List Bracket} (h : Admits shape ws s r) :
    ∀ ℓ, shape = .whole ℓ → Level.unary.rank < ℓ.rank → Begins s := by
  induction h with
  | number h =>
      intros
      exact .number h
  | reference h =>
      intros
      exact .reference h
  | parentheses ho =>
      intros
      exact .parenthesis ho
  | abs ha =>
      intros
      exact .abs ha
  | chain _ _ _ ih _ =>
      rintro ℓ ⟨⟩ hlt
      exact ih _ rfl (Nat.lt_of_lt_of_le hlt (Level.rank_le_rank_next _))
  | comparison _ _ _ ih _ =>
      rintro ℓ ⟨⟩ hlt
      exact ih _ rfl (by decide)
  | tighter _ _ ih =>
      rintro ℓ ⟨⟩ hlt
      exact ih _ rfl (Nat.lt_of_lt_of_le hlt (Level.rank_le_rank_next _))
  | implication | leading =>
      rintro ℓ ⟨⟩ hlt
      exact absurd hlt (by decide)
  | finish | extend => nofun

theorem Derives.begins {f : Formula} (h : Derives (.whole ℓ) f s r)
    (hlt : Level.unary.rank < ℓ.rank) : Begins s := by
  obtain ⟨ws, h⟩ := h.admits
  exact h.begins ℓ rfl hlt

theorem Begins.trimmed (h : Begins s) : Begins (afterBlanks s) := by
  cases h with
  | number h => exact .number (h.afterBlanks (solid_number _))
  | reference h => exact .reference (h.afterBlanks (solid_reference _))
  | parenthesis h => exact .parenthesis (h.afterBlanks (Token.solid_reads (by decide)))
  | abs h => exact .abs (h.afterBlanks (Token.solid_reads (by decide)))

theorem Begins.opens (h : Begins s) : Opens s := by
  cases h with
  | number h =>
      obtain ⟨m, hm, -⟩ := h.exists_of_solid (solid_number _)
      rcases hm.head with ⟨c, t, hs, hc⟩ | ⟨c, t, hs, hc⟩
      · exact ⟨c, _, hs, .inl hc⟩
      · exact ⟨'-', _, hs, by simp [hc]⟩
  | reference h =>
      obtain ⟨m, hm, -⟩ := h.exists_of_solid (solid_reference _)
      obtain ⟨c, t, hs, hc⟩ := hm.head
      exact ⟨c, _, hs, .inr (.inl hc)⟩
  | parenthesis h =>
      obtain ⟨m, hm, -⟩ := h.exists_of_solid (Token.solid_reads (by decide))
      exact ⟨'(', m, hm, by simp⟩
  | abs h =>
      obtain ⟨m, hm, -⟩ := h.exists_of_solid (Token.solid_reads (by decide))
      exact ⟨'a', _, hm.eq_append, .inr (.inl (by decide))⟩

/-- A token before an operand begins with a letter or an exclamation mark. -/
theorem opens_of_mem_leading {t : Token} {op : UnaryOp} (hmem : (t, op) ∈ leadingOperators)
    (h : Spaced t.Reads s r) : Opens s := by
  have hsolid := isSolid_of_mem_leading hmem
  obtain ⟨m, hm, -⟩ := h.exists_of_solid (Token.solid_reads hsolid)
  obtain ⟨c, cs, hc, -⟩ := Token.exists_chars_of_isSolid hsolid
  refine ⟨c, cs ++ m, by rw [hm.eq_append, hc]; rfl, ?_⟩
  have hhead : isSegmentHead c = true ∨ c = '!' :=
    Token.head_of_mem (p := fun c => isSegmentHead c = true ∨ c = '!') (by decide) hmem hc
  rcases hhead with h | h
  · exact .inr (.inl h)
  · exact .inr (.inr (.inr (.inl h)))

theorem Sign.opens {vs : List Bracket} (h : Sign leadingSigns vs s r) : Opens s := by
  cases h with
  | plain hmem ht =>
      obtain ⟨op, hmem, -⟩ := exists_of_mem_leadingSigns hmem
      exact opens_of_mem_leading hmem ht
  | windowed hmem _ ht _ =>
      obtain ⟨op, hmem, -⟩ := exists_of_mem_leadingSigns hmem
      exact opens_of_mem_leading hmem ht

/-- Every phrase begins as an operand does. -/
theorem Admits.opens {shape : Shape} {ws : List Bracket} (h : Admits shape ws s r) :
    ∀ ℓ, shape = .whole ℓ → Opens s := by
  induction h with
  | number h =>
      intros
      exact (Begins.number h).opens
  | reference h =>
      intros
      exact (Begins.reference h).opens
  | parentheses ho =>
      intros
      exact (Begins.parenthesis ho).opens
  | abs ha =>
      intros
      exact (Begins.abs ha).opens
  | chain _ _ _ ih _ | comparison _ _ _ ih _ | implication _ _ _ ih _ | tighter _ _ ih =>
      intros
      exact ih _ rfl
  | leading ho =>
      intros
      exact ho.opens
  | finish | extend => nofun

theorem Derives.opens {f : Formula} (h : Derives (.whole ℓ) f s r) : Opens s := by
  obtain ⟨ws, h⟩ := h.admits
  exact h.opens ℓ rfl

/-- Where a phrase has no operator before it, none is read. -/
theorem Begins.reader_mismatch {t : Token} {op : UnaryOp} (h : Begins s)
    (hmem : (t, op) ∈ leadingOperators) : ∃ m, t.reader s = .error (.mismatch m) := by
  obtain ⟨c, cs, hc, -⟩ := Token.exists_chars_of_isSolid (isSolid_of_mem_leading hmem)
  obtain ⟨hdigit, hminus, hopen⟩ : c.isDigit = false ∧ c ≠ '-' ∧ c ≠ '(' :=
    Token.head_of_mem (p := fun c => c.isDigit = false ∧ c ≠ '-' ∧ c ≠ '(') (by decide) hmem hc
  cases h with
  | number h =>
      obtain ⟨m, hm, -⟩ := h.exists_of_solid (solid_number _)
      rcases hm.head with ⟨d, u, hs, hd⟩ | ⟨d, u, hs, -⟩
      · apply Token.reader_mismatch_of_head hc hs
        rintro rfl
        rw [hdigit] at hd
        exact Bool.false_ne_true hd
      · exact Token.reader_mismatch_of_head hc hs hminus
  | parenthesis h =>
      obtain ⟨m, hm, -⟩ := h.exists_of_solid (Token.solid_reads (by decide))
      exact Token.reader_mismatch_of_head hc hm hopen
  | abs h =>
      have hapart : ∀ entry ∈ leadingOperators, (Token.word "abs").apart entry.1 = true := by
        decide
      exact Token.reader_mismatch_of_apart (by decide) (hapart _ hmem) h
  | reference h =>
      have hword : ∀ entry ∈ leadingOperators,
          entry.1 = .symbol "!" ∨ ∃ word ∈ reserved, entry.1 = .word word := by decide
      obtain ⟨m, hm, -⟩ := h.exists_of_solid (solid_reference _)
      rcases hword _ hmem with rfl | ⟨word, hreserved, rfl⟩
      · obtain ⟨d, u, hs, hd⟩ := hm.head
        apply Token.reader_mismatch_of_head hc hs
        rintro rfl
        obtain rfl : '!' = c := (List.cons.inj hc).1
        exact absurd hd (by decide)
      · exact hm.reader_mismatch hreserved

/-- No phrase gives anything back to the text before it. -/
theorem Admits.length_le {shape : Shape} {ws : List Bracket} (h : Admits shape ws s r) :
    (afterBlanks r).length ≤ (afterBlanks s).length := by
  induction h with
  | number h => exact (h.length_lt (solid_number _)).le
  | reference h => exact (h.length_lt (solid_reference _)).le
  | parentheses ho _ hc ih =>
      have hopen := ho.length_lt (Token.solid_reads (by decide))
      have hclose := hc.length_lt (Token.solid_reads (by decide))
      omega
  | abs ha ho _ hc ih =>
      have habs := ha.length_lt (Token.solid_reads (by decide))
      have hopen := ho.length_lt (Token.solid_reads (by decide))
      have hclose := hc.length_lt (Token.solid_reads (by decide))
      omega
  | chain _ _ _ ihf ihg => exact ihg.trans ihf
  | finish => exact le_rfl
  | extend ho _ _ ihg ihk | comparison _ ho _ ihg ihk | implication _ ho _ ihg ihk =>
      have hoperator := ho.length_lt Level.isSolid_of_mem_signs
      omega
  | leading ho _ ih => exact ih.trans (ho.length_lt isSolid_of_mem_leadingSigns).le
  | tighter _ _ ih => exact ih

theorem Derives.length_le {phrase : Phrase} {f : Formula} (h : Derives phrase f s r) :
    (afterBlanks r).length ≤ (afterBlanks s).length := by
  obtain ⟨ws, h⟩ := h.admits
  exact h.length_le

/-- What may come after a chain, or goes on with it, may come after its operands. -/
theorem Admits.follows_next {ws : List Bracket} (h : Admits (.further ℓ) ws s r)
    (hr : Follows ℓ r) : Follows ℓ.next s := by
  cases h with
  | finish => exact hr.mono ℓ.rank_le_rank_next
  | extend ho _ _ =>
      have hlt : ℓ.rank < ℓ.next.rank := by
        cases ho with
        | plain hmem _ =>
            obtain ⟨op, hmem, -⟩ := Level.exists_of_mem_signs hmem
            exact Level.rank_lt_rank_next hmem
        | windowed hmem _ _ _ =>
            obtain ⟨op, hmem, -⟩ := Level.exists_of_mem_signs hmem
            exact Level.rank_lt_rank_next hmem
      exact .of_sign hlt ho

theorem Derives.follows_next {f g : Formula} (h : Derives (.further ℓ f) g s r)
    (hr : Follows ℓ r) : Follows ℓ.next s := by
  obtain ⟨ws, h⟩ := h.admits
  exact h.follows_next hr

end SignalLogic.Grammar
