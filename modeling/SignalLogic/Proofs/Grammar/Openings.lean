import SignalLogic.Proofs.Grammar.Operators

/-!
# Opening brackets

No lexeme holds an opening bracket but that of an interval. So the opening brackets of an admitted
text are those of its intervals, one for one and in the same order.
-/

namespace SignalLogic.Grammar

variable {s m r t : List Char} {w : Bracket} {vs ws : List Bracket}

/-- What stands behind each opening bracket of the text, from left to right. -/
def openings : List Char → List (List Char)
  | [] => []
  | c :: s => if c = '[' then s :: openings s else openings s

theorem openings_cons_of_ne {c : Char} (hc : c ≠ '[') : openings (c :: s) = openings s :=
  if_neg hc

theorem openings_append_of_not_mem (ht : '[' ∉ t) : openings (t ++ r) = openings r := by
  induction t with
  | nil => rfl
  | cons c t ih =>
      rw [List.mem_cons, not_or] at ht
      rw [List.cons_append, openings_cons_of_ne (Ne.symm ht.1), ih ht.2]

theorem mem_openings_iff : t ∈ openings s ↔ '[' :: t <:+ s := by
  induction s with
  | nil => simp [openings]
  | cons c s ih =>
      rw [List.suffix_cons_iff, ← ih, List.cons.injEq]
      by_cases hc : c = '['
      · simp [openings, hc]
      · simp [openings, hc, Ne.symm hc]

/-- Further to the right less text is left. -/
theorem pairwise_openings (s : List Char) :
    (openings s).Pairwise fun t u => u.length < t.length := by
  induction s with
  | nil => exact .nil
  | cons c s ih =>
      by_cases hc : c = '['
      · rw [openings, if_pos hc]
        exact .cons (fun t ht => (mem_openings_iff.mp ht).length_le) ih
      · rw [openings_cons_of_ne hc]
        exact ih

theorem Blanks.openings_eq (h : Blanks s r) : openings s = openings r := by
  induction h with
  | refl => rfl
  | skip hc _ ih =>
      rw [openings_cons_of_ne, ih]
      rintro rfl
      exact absurd hc (by decide)

/-- Blanks around a lexeme hold no bracket. -/
theorem Spaced.openings_eq {lexeme : List Char → List Char → Prop}
    (hl : ∀ {s r}, lexeme s r → openings s = openings r) (h : Spaced lexeme s r) :
    openings s = openings r := by
  obtain ⟨s', r', hs, hlexeme, hr⟩ := h
  rw [hs.openings_eq, hl hlexeme, hr.openings_eq]

theorem Spaced.openings_eq_of_token {token : Token} (htoken : '[' ∉ token.chars)
    (h : Spaced token.Reads s r) : openings s = openings r := by
  refine h.openings_eq fun {s r} h => ?_
  rw [h.eq_append, openings_append_of_not_mem htoken]

theorem Digits.not_mem {ds : List Char} (h : Digits ds) : '[' ∉ ds :=
  fun hmem => absurd (h.2 _ hmem) (by decide)

theorem Magnitude.openings_eq {d : Decimal} (h : Magnitude d s r) : openings s = openings r := by
  cases h with
  | whole h => exact openings_append_of_not_mem h.not_mem
  | point h hf =>
      rw [openings_append_of_not_mem h.not_mem, openings_cons_of_ne (by decide),
        openings_append_of_not_mem hf.not_mem]

theorem Number.openings_eq {x : Value} (h : Number x s r) : openings s = openings r := by
  cases h with
  | positive h => exact h.openings_eq
  | negative h => exact (openings_cons_of_ne (by decide)).trans h.openings_eq

theorem IsSegment.not_mem {word : String} (h : IsSegment word) : '[' ∉ word.toList := by
  obtain ⟨⟨c, t, hword, hc, ht⟩, -⟩ := h
  rw [hword, List.mem_cons, not_or]
  refine ⟨?_, fun hmem => absurd (ht _ hmem) (by decide)⟩
  rintro rfl
  exact absurd hc (by decide)

theorem Reference.openings_eq {v : Variable} (h : Reference v s r) : openings s = openings r := by
  obtain ⟨words, hpath, -⟩ := h
  induction hpath with
  | last hw _ => exact openings_append_of_not_mem hw.not_mem
  | dot hw _ ih =>
      rw [openings_append_of_not_mem hw.not_mem, openings_cons_of_ne (by decide), ih]

theorem Bound.openings_eq {e : Endpoint} (h : Bound e s r) : openings s = openings r := by
  cases h with
  | finite h _ => exact openings_append_of_not_mem h.not_mem
  | infinite => exact openings_append_of_not_mem (by decide)

/-- An interval has one bracket that opens. -/
theorem Bracket.Reads.openings_eq (h : w.Reads s r) : openings s = w.rest :: openings r := by
  obtain ⟨hopen, s₁, s₂, s₃, hlower, hcomma, hupper, hclose⟩ := h
  rw [hopen.openings_eq, openings, if_pos rfl, hlower.openings_eq Bound.openings_eq,
    hcomma.openings_eq_of_token (by decide), hupper.openings_eq Bound.openings_eq,
    hclose.openings_eq_of_token (by decide)]

theorem Sign.openings_eq {table : List (Token × Operator)}
    (htable : ∀ entry ∈ table, '[' ∉ entry.1.chars) (h : Sign table vs s r) :
    openings s = vs.map Bracket.rest ++ openings r := by
  cases h with
  | plain hmem ht => exact ht.openings_eq_of_token (htable _ hmem)
  | windowed hmem _ ht hw =>
      rw [ht.openings_eq_of_token (htable _ hmem), hw.openings_eq]
      rfl

theorem Level.not_mem_signs (ℓ : Level) : ∀ entry ∈ ℓ.signs, '[' ∉ entry.1.chars := by
  cases ℓ <;> decide

theorem not_mem_leadingSigns : ∀ entry ∈ leadingSigns, '[' ∉ entry.1.chars := by
  decide

/-- The opening brackets of a phrase are those of its intervals. -/
theorem Admits.openings_eq {shape : Shape} (h : Admits shape ws s r) :
    openings s = ws.map Bracket.rest ++ openings r := by
  induction h with
  | number h => exact h.openings_eq Number.openings_eq
  | reference h => exact h.openings_eq Reference.openings_eq
  | parentheses ho _ hc ih =>
      rw [ho.openings_eq_of_token (by decide), ih, hc.openings_eq_of_token (by decide)]
  | abs ha ho _ hc ih =>
      rw [ha.openings_eq_of_token (by decide), ho.openings_eq_of_token (by decide), ih,
        hc.openings_eq_of_token (by decide)]
  | chain _ _ _ ihf ihg => rw [ihf, ihg, List.map_append, List.append_assoc]
  | finish => rfl
  | extend ho _ _ ihg ihk =>
      rw [ho.openings_eq (Level.not_mem_signs _), ihg, ihk]
      simp
  | comparison _ ho _ ihf ihg | implication _ ho _ ihf ihg =>
      rw [ihf, ho.openings_eq (Level.not_mem_signs _), ihg]
      simp
  | leading ho _ ih =>
      rw [ho.openings_eq not_mem_leadingSigns, ih]
      simp
  | tighter _ _ ih => exact ih

/-- Behind its opening bracket stand the bounds of the interval and the closing bracket. -/
def Bracket.Stands (w : Bracket) : Prop :=
  ∃ r, Ends w.lower w.upper w.rest r

theorem Sign.stands {table : List (Token × Operator)} (h : Sign table vs s r) :
    ∀ w ∈ vs, w.Stands := by
  cases h with
  | plain => simp
  | windowed _ _ _ hw =>
      rintro w hmem
      obtain rfl := List.mem_singleton.mp hmem
      exact ⟨_, hw.2⟩

theorem Admits.stands {shape : Shape} (h : Admits shape ws s r) : ∀ w ∈ ws, w.Stands := by
  induction h with
  | number | reference | finish => simp
  | parentheses _ _ _ ih | abs _ _ _ _ ih | tighter _ _ ih => exact ih
  | chain _ _ _ ihf ihg => exact List.forall_mem_append.mpr ⟨ihf, ihg⟩
  | extend ho _ _ ihg ihk =>
      exact List.forall_mem_append.mpr ⟨ho.stands, List.forall_mem_append.mpr ⟨ihg, ihk⟩⟩
  | comparison _ ho _ ihf ihg | implication _ ho _ ihf ihg =>
      exact List.forall_mem_append.mpr ⟨ihf, List.forall_mem_append.mpr ⟨ho.stands, ihg⟩⟩
  | leading ho _ ih => exact List.forall_mem_append.mpr ⟨ho.stands, ih⟩

/-- The same text behind an opening bracket has the same bounds. -/
theorem Ends.unique {lower lower' : Offset} {upper upper' : Endpoint} (h : Ends lower upper s r)
    (h' : Ends lower' upper' s m) : lower = lower' ∧ upper = upper' := by
  obtain ⟨u, hu, -⟩ := bounds_of_ends h
  obtain ⟨u', hu', -⟩ := bounds_of_ends h'
  have hread := hu.symm.trans hu'
  simp only [Except.ok.injEq, Prod.mk.injEq] at hread
  exact hread.1

end SignalLogic.Grammar
