import SignalLogic.Proofs.Deciding
import SignalLogic.Proofs.Grammar.Completeness

/-!
# Admitted texts are decided

By induction on its shape, every admitted phrase is read whole, or the readers fail for good at
the leftmost of its intervals that is inverted. A reader that fails so has taken the same tokens
before as one that does not, and no alternative is tried in its place.
-/

namespace SignalLogic.Grammar

open Reader

variable {s m m' r : List Char} {ℓ : Level} {w : Bracket} {vs ws : List Bracket}
  {o o' : Option Failure} {language unary other : Reader Formula}

/-- The failure of an interval that no bounds in order could have. -/
def Bracket.fault? (w : Bracket) : Option Failure :=
  match Interval.ofEnds w.lower w.upper with
  | .ok _ => none
  | .error cause => some (.malformed w.rest cause)

/-- The failure of the leftmost interval that has one. -/
def firstFault? (ws : List Bracket) : Option Failure :=
  ws.findSome? Bracket.fault?

@[simp] theorem firstFault?_singleton (w : Bracket) : firstFault? [w] = w.fault? := by
  simp [firstFault?]

@[simp] theorem firstFault?_append (vs ws : List Bracket) :
    firstFault? (vs ++ ws) = (firstFault? vs).or (firstFault? ws) :=
  List.findSome?_append

/-- Behind its opening bracket an interval is read, or it fails for good. -/
theorem interval_decides (h : w.Reads s r) :
    Decides interval (afterBlanks s) w.fault? (afterBlanks r) := by
  obtain ⟨m, hbounds, hm⟩ := bounds_of_ends h.2
  have hopen : literal "[" (afterBlanks (afterBlanks s)) = .ok ((), w.rest) := by
    rw [afterBlanks_afterBlanks, h.head]
    exact literal_eq_ok_iff.mpr rfl
  unfold Bracket.fault?
  cases hi : Interval.ofEnds w.lower w.upper with
  | ok i =>
      have hread : interval (afterBlanks s) = .ok (i, afterBlanks r) := by
        refine token_eq_ok_iff.mpr ⟨m, ?_, hm.afterBlanks_eq.symm⟩
        refine bind_eq_ok_iff.mpr ⟨(), w.rest, hopen, ?_⟩
        exact commit_eq_ok_iff.mpr (form_eq_ok_iff.mpr ⟨_, hbounds, hi⟩)
      exact .reads hread
  | error cause =>
      refine .fails (token_apply_error ?_) nofun
      rw [bind_apply_ok hopen]
      simp [commit, form, hbounds, hi]

/-- An operator between operands is read, or its interval fails. -/
theorem operatorReader_decides (h : Sign ℓ.signs vs s r) (hr : Opens r) :
    Decides ℓ.operatorReader (afterBlanks s) (firstFault? vs) (afterBlanks r) := by
  cases h with
  | plain hsign ht =>
      obtain ⟨op, hmem, -⟩ := Level.exists_of_mem_signs hsign
      exact .reads (operatorReader_of_between (.plain hmem ht) hr)
  | windowed hsign hop ht hw =>
      obtain ⟨op, hmem, rfl⟩ := Level.exists_of_mem_signs hsign
      have htoken := tokens_of_reads ℓ.ordered_operators hmem (Level.isSolid_of_mem hmem)
        (.inr ⟨_, hw.head⟩) ht
      rw [firstFault?_singleton]
      refine .bind_ok htoken ?_
      cases op with
      | temporal op _ => exact (interval_decides hw).optional.map _
      | arithmetic | comparison | logic => cases hop

/-- An operator before an operand is read with its operand, or the first of their intervals
that has to fail does. -/
theorem choice_decides_of_leading (h : Sign leadingSigns vs s m) (hm : Opens m)
    (hf : Decides unary (afterBlanks m) o r) :
    Decides (choice [leading negations unary, leading edges unary, leading temporals unary, other])
      (afterBlanks s) ((firstFault? vs).or o) r := by
  have hoperand {table : List (Token × UnaryOp)}
      (hop : Decides (leadingReader table) (afterBlanks s) (firstFault? vs) (afterBlanks m)) :
      Decides (leading table unary) (afterBlanks s) ((firstFault? vs).or o) r :=
    hop.bind fun op _ => hf.bind_pure fun f => Formula.unary op f none
  cases h with
  | plain hsign ht =>
      obtain ⟨op, hmem, -⟩ := exists_of_mem_leadingSigns hsign
      obtain ⟨table, before, after, hsplit, htable, hsub, hmem, hbefore⟩ :=
        exists_leading_table hmem ht unary other
      rw [hsplit]
      exact .choice before hbefore
        (hoperand (.reads (leadingReader_of_plain htable hsub hmem ht hm)))
  | windowed hsign hop ht hw =>
      obtain ⟨op, hmem, rfl⟩ := exists_of_mem_leadingSigns hsign
      obtain ⟨table, before, after, hsplit, htable, hsub, hmem, hbefore⟩ :=
        exists_leading_table hmem ht unary other
      have htoken := tokens_of_reads htable hmem (isSolid_of_mem_leading (hsub hmem))
        (.inr ⟨_, hw.head⟩) ht
      rw [hsplit]
      refine .choice before hbefore (hoperand ?_)
      rw [firstFault?_singleton]
      refine .bind_ok htoken ?_
      cases op with
      | temporal op _ => exact (interval_decides hw).optional.map _
      | abs | not | edge => cases hop

/-- A chain goes on with an operator and an operand, or one of their intervals fails. -/
theorem furtherReader_decides (h : Sign ℓ.signs vs s m) (hm : Opens m)
    (hg : Decides (ℓ.next.reader language) (afterBlanks m) o r) :
    Decides (ℓ.furtherReader language) (afterBlanks s) ((firstFault? vs).or o) r :=
  ((operatorReader_decides h hm).map joining).bind fun op _ => hg.bind_pure (Prod.mk op)

variable {first second : Reader Formula}

theorem single_decides_of_follows (hf : Decides first s o r) (hr : Follows ℓ r)
    (hsecond : ∀ t, Blocked t → ∃ m, second t = .error (.mismatch m)) :
    Decides (single first ℓ.operatorReader second) s o r := by
  cases hf with
  | reads h => exact .reads (single_of_follows h hr hsecond)
  | fails h he => exact .fails (bind_apply_error h) he

theorem single_decides_of_sign (hf : Decides first s o (afterBlanks m))
    (ho : Sign ℓ.signs vs m m') (hm : Opens m') (hg : Decides second (afterBlanks m') o' r) :
    Decides (single first ℓ.operatorReader second) s (o.or ((firstFault? vs).or o')) r := by
  refine hf.bind fun left _ => ?_
  have hpair := (operatorReader_decides ho hm).bind fun op _ => hg.bind_pure (Prod.mk op)
  refine hpair.optional.bind_reads
    (b := fun found => found.elim left fun pair => joining pair.1 left pair.2) fun found => ?_
  cases found <;> rfl

theorem inParentheses_decides (ho : Spaced (Token.symbol "(").Reads s m)
    (hf : Decides language (afterBlanks m) o (afterBlanks m'))
    (hc : Spaced (Token.symbol ")").Reads m' r) :
    Decides (inParentheses language) (afterBlanks s) o (afterBlanks r) := by
  have hopen := Token.symbol_of_spaced (by decide) (ho.afterBlanks (Token.solid_reads (by decide)))
  have hclose := Token.symbol_of_spaced (by decide) (hc.afterBlanks (Token.solid_reads (by decide)))
  refine .bind_ok hopen (hf.bind_reads (b := id) fun f => ?_)
  exact bind_eq_ok_iff.mpr ⟨(), _, hclose, rfl⟩

/-- The readers of a level read the phrase, or they fail as told. -/
def Shape.Decided (language : Reader Formula) (o : Option Failure) (s r : List Char) :
    Shape → Prop
  | whole ℓ => Decides (ℓ.reader language) (afterBlanks s) o (afterBlanks r)
  | further ℓ => Decides (many (ℓ.furtherReader language)) (afterBlanks s) o (afterBlanks r)

/-- In parentheses a formula is decided as the whole language decides it. -/
theorem language_decides (hlt : (afterBlanks m).length < (afterBlanks s).length)
    (hlanguage : ∀ t, t.length < (afterBlanks s).length → language t = formula t)
    (hc : Spaced (Token.symbol ")").Reads m' r)
    (hf : ∀ p : Reader Formula, (∀ t, t.length < (afterBlanks m).length → p t = formula t) →
      Follows .formula m' →
      Decides (Level.formula.reader p) (afterBlanks m) o (afterBlanks m')) :
    Decides language (afterBlanks m) o (afterBlanks m') :=
  (hf _ (fun _ ht => within_of_lt ht) (.of_closing hc)).congr (language_inside_eq hlt hlanguage)

namespace Shape.Decided

theorem parentheses (ho : Spaced (Token.symbol "(").Reads s m)
    (hf : Decides language (afterBlanks m) o (afterBlanks m'))
    (hc : Spaced (Token.symbol ")").Reads m' r) : (whole .atom).Decided language o s r :=
  .choice [_, _] (mismatch_before_parentheses ho) (inParentheses_decides ho hf hc)

theorem abs {s' : List Char} (ha : Spaced (Token.word "abs").Reads s s')
    (ho : Spaced (Token.symbol "(").Reads s' m)
    (hf : Decides language (afterBlanks m) o (afterBlanks m'))
    (hc : Spaced (Token.symbol ")").Reads m' r) : (whole .atom).Decided language o s r := by
  refine .choice [_] (mismatch_before_abs ha) (.bind_ok (keyword_abs_of_spaced ha ho) ?_)
  exact (inParentheses_decides ho hf hc).bind_pure _

/-- A chain is decided by its first operand, or else by what follows it. -/
theorem chain (hℓ : ℓ.isChain = true) (hf : (whole ℓ.next).Decided language o s m)
    (hg : (further ℓ).Decided language o' m r) : (whole ℓ).Decided language (o.or o') s r := by
  show Decides (ℓ.reader language) (afterBlanks s) _ (afterBlanks r)
  rw [Level.reader_of_isChain hℓ]
  exact Decides.bind hf fun f _ => Decides.bind_pure hg (foldChain f)

theorem finish (hr : Follows ℓ s) : (further ℓ).Decided language none s s := by
  obtain ⟨m, hm⟩ := hr.trimmed.furtherReader language
  exact .reads (many_of_mismatch hm)

theorem extend (ho : Sign ℓ.signs vs s m) (hm : Opens m)
    (hlt : (afterBlanks m').length < (afterBlanks s).length)
    (hg : (whole ℓ.next).Decided language o m m') (hk : (further ℓ).Decided language o' m' r) :
    (further ℓ).Decided language (((firstFault? vs).or o).or o') s r :=
  (furtherReader_decides ho hm hg).many hlt hk

theorem comparison (hf : (whole .additive).Decided language o s m)
    (ho : Sign Level.relational.signs vs m m') (hm : Opens m')
    (hg : (whole .additive).Decided language o' m' r) :
    (whole .relational).Decided language (o.or ((firstFault? vs).or o')) s r := by
  show Decides (relational language) _ _ _
  rw [relational_eq]
  exact single_decides_of_sign hf ho hm hg

/-- The right operand of an implication is decided where less of the text is left. -/
theorem implication (hf : (whole .disjunction).Decided language o s m)
    (ho : Sign Level.implication.signs vs m m') (hm : Opens m')
    (hlt : (afterBlanks m').length < (afterBlanks s).length)
    (hg : (whole .implication).Decided language o' m' r) :
    (whole .implication).Decided language (o.or ((firstFault? vs).or o')) s r := by
  have hright := Decides.congr hg (within_of_lt hlt)
  exact (single_decides_of_sign hf ho hm hright).congr (implication_apply _ _)

/-- So is the operand of an operator before it. -/
theorem leading (ho : Sign leadingSigns vs s m) (hm : Opens m)
    (hlt : (afterBlanks m).length < (afterBlanks s).length)
    (hf : (whole .unary).Decided language o m r) :
    (whole .unary).Decided language ((firstFault? vs).or o) s r := by
  have hoperand := Decides.congr hf (within_of_lt hlt)
  exact (choice_decides_of_leading ho hm hoperand).congr (unary_apply _ _)

theorem implication_of_tighter (hf : (whole .disjunction).Decided language o s r)
    (hr : Follows .implication r) : (whole .implication).Decided language o s r := by
  refine Decides.congr ?_ (implication_apply _ _)
  exact single_decides_of_follows hf hr.trimmed
    fun t ht => within_mismatch (ht.reader _ .implication)

theorem unary_of_tighter (hf : (whole .relational).Decided language o s r) (hs : Begins s) :
    (whole .unary).Decided language o s r := by
  refine Decides.congr ?_ (unary_apply _ _)
  exact .choice [_, _, _] (leadings_mismatch fun _ hentry => hs.trimmed.reader_mismatch hentry) hf

theorem relational_of_tighter (hf : (whole .additive).Decided language o s r)
    (hr : Follows .relational r) : (whole .relational).Decided language o s r := by
  show Decides (relational language) _ _ _
  rw [relational_eq]
  exact single_decides_of_follows hf hr.trimmed fun t ht => ht.reader _ .additive

end Shape.Decided

/-- Every admitted phrase is read, or the leftmost of its intervals that is inverted fails for
good. -/
theorem Admits.decided {shape : Shape} (h : Admits shape ws s r)
    (hlanguage : ∀ t, t.length < (afterBlanks s).length → language t = formula t)
    (hr : Follows shape.level r) : shape.Decided language (firstFault? ws) s r := by
  induction h generalizing language with
  | number h => exact .reads (atom_of_number h hr)
  | reference h => exact .reads (atom_of_reference h hr)
  | parentheses ho _ hc ih =>
      have hlt := ho.length_lt (Token.solid_reads (by decide))
      exact .parentheses ho (language_decides hlt hlanguage hc fun _ => ih) hc
  | abs ha ho _ hc ih =>
      have habs := ha.length_lt (Token.solid_reads (by decide))
      have hopen := ho.length_lt (Token.solid_reads (by decide))
      exact .abs ha ho (language_decides (hopen.trans habs) hlanguage hc fun _ => ih) hc
  | chain hℓ hf hg ihf ihg =>
      have hfirst := ihf hlanguage (hg.follows_next hr)
      have hothers := ihg (fun t ht => hlanguage t (ht.trans_le hf.length_le)) hr
      rw [firstFault?_append]
      exact .chain hℓ hfirst hothers
  | finish => exact .finish hr
  | extend ho hg hk ihg ihk =>
      have hshorter := ho.length_lt Level.isSolid_of_mem_signs
      have hlt := hg.length_le.trans_lt hshorter
      have hoperand := ihg (fun t ht => hlanguage t (ht.trans hshorter)) (hk.follows_next hr)
      have hothers := ihk (fun t ht => hlanguage t (ht.trans hlt)) hr
      rw [← List.append_assoc, firstFault?_append, firstFault?_append]
      exact .extend ho (hg.opens _ rfl) hlt hoperand hothers
  | comparison hf ho hg ihf ihg =>
      have hshorter := (ho.length_lt Level.isSolid_of_mem_signs).trans_le hf.length_le
      have hleft := ihf hlanguage (.of_sign (by decide) ho)
      have hright := ihg (fun t ht => hlanguage t (ht.trans hshorter)) (hr.mono (by decide))
      rw [firstFault?_append, firstFault?_append]
      exact .comparison hleft ho (hg.opens _ rfl) hright
  | implication hf ho hg ihf ihg =>
      have hshorter := (ho.length_lt Level.isSolid_of_mem_signs).trans_le hf.length_le
      have hleft := ihf hlanguage (.of_sign (by decide) ho)
      have hright := ihg (fun t ht => hlanguage t (ht.trans hshorter)) hr
      rw [firstFault?_append, firstFault?_append]
      exact .implication hleft ho (hg.opens _ rfl) hshorter hright
  | leading ho hf ih =>
      have hshorter := ho.length_lt isSolid_of_mem_leadingSigns
      have hoperand := ih (fun t ht => hlanguage t (ht.trans hshorter)) hr
      rw [firstFault?_append]
      exact .leading ho (hf.opens _ rfl) hshorter hoperand
  | @tighter ℓ ws s r hℓ hf ih =>
      have hread := ih hlanguage (hr.mono ℓ.rank_le_rank_next)
      rcases hℓ with rfl | rfl | rfl
      · exact hread.implication_of_tighter hr
      · exact hread.unary_of_tighter (hf.begins _ rfl (by decide))
      · exact hread.relational_of_tighter hr

end SignalLogic.Grammar
