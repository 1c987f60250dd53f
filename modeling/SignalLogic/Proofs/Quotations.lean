import SignalLogic.Proofs.Grammar.Faults

/-!
# What a parse error quotes

An error quotes the rest of the text from some place on. There are three such places, apart
from those of malformed intervals: behind a formula that is followed by more, at the first
character that is no blank, and inside the brackets behind a temporal operator. However deep a
mismatch lies, it is taken back to the beginning unless it lies in such brackets.
-/

namespace SignalLogic

namespace Grammar

open Reader

/-- Behind the opening bracket some of an interval has been read: blanks, the lower bound, the
comma or the upper bound. -/
inductive Begun : List Char → List Char → Prop
  | opened {s r} (hb : Blanks s r) : Begun s r
  | lower {n s r} (hl : Spaced (Bound (.finite n)) s r) : Begun s r
  | comma {n s m r} (hl : Spaced (Bound (.finite n)) s m)
      (hc : Spaced (Token.symbol ",").Reads m r) : Begun s r
  | upper {n upper s m m' r} (hl : Spaced (Bound (.finite n)) s m)
      (hc : Spaced (Token.symbol ",").Reads m m') (hu : Spaced (Bound upper) m' r) : Begun s r

variable {s m r : List Char} {e : Failure}

theorem Begun.cut (h : Begun s r) : Cut Begun s r := by
  cases h with
  | opened hb => exact (cuttable_blanks _ _ hb).mono .opened
  | lower hl => exact hl.cut_bound.mono .lower
  | comma hl hc =>
      refine (hl.cut_bound.comp hc.cut_token).mono ?_
      rintro s r ⟨m, hl, hc⟩
      exact .comma hl hc
  | upper hl hc hu =>
      refine ((hl.cut_bound.comp hc.cut_token).comp hu.cut_bound).mono ?_
      rintro s r ⟨m', ⟨m, hl, hc⟩, hu⟩
      exact .upper hl hc hu

theorem offset_eq_error (h : offset s = .error e) : e = .mismatch s :=
  filterMap_eq_error (fun _ => run_eq_error) h

theorem endpoint_eq_mismatch (h : endpoint s = .error (.mismatch r)) : r = s := by
  have hoffset := map_eq_error_iff.mp (choice_eq_mismatch [_] h)
  cases offset_eq_error hoffset
  rfl

/-- Where the bounds of an interval mismatch, they have been begun. -/
theorem begun_of_bounds (h : bounds s = .error (.mismatch r)) : Begun s r := by
  rcases bind_eq_error_iff.mp h with h | ⟨lower, s₁, hlower, h⟩
  · cases offset_eq_error (token_eq_error_iff.mp h)
    exact .opened (blanks_afterBlanks s)
  have hl := (spaced_of_token (fun h => (offset_eq_ok_iff.mp h).1) hlower).1
  rcases bind_eq_error_iff.mp h with h | ⟨⟨⟩, s₂, hcomma, h⟩
  · cases literal_eq_error h
    exact .lower hl
  have hc : (Token.symbol ",").Reads s₁ s₂ := literal_eq_ok_iff.mp hcomma
  rcases bind_eq_error_iff.mp h with h | ⟨upper, s₃, hupper, h⟩
  · cases endpoint_eq_mismatch (token_eq_error_iff.mp h)
    exact .comma hl ⟨s₁, s₂, .refl, hc, blanks_afterBlanks s₂⟩
  rcases bind_eq_error_iff.mp h with h | ⟨⟨⟩, s₄, -, h⟩
  · cases literal_eq_error h
    exact .upper hl ⟨s₁, s₂, .refl, hc, .refl⟩ (spaced_of_token bound_of_endpoint hupper).1
  · cases h

/-- The bounds of an interval fail by mismatch only. -/
theorem bounds_eq_error (h : bounds s = .error e) : ∃ r, e = .mismatch r := by
  have horderly : Orderly (fun _ _ => False) bounds := by
    have hoffset : Orderly (fun _ _ => False) offset := (Orderly.run Char.isDigit).filterMap _
    have hendpoint : Orderly (fun _ _ => False) endpoint :=
      ((Orderly.literal "inf").bind fun _ => Orderly.pure _).orElse (hoffset.map _)
    exact hoffset.token.bind fun _ => (Orderly.literal ",").bind fun _ =>
      hendpoint.token.bind fun _ => (Orderly.literal "]").bind fun _ => Orderly.pure _
  cases horderly.located h with
  | mismatch => exact ⟨_, rfl⟩
  | inside _ hfalse => exact hfalse.elim

/-- An interval that fails behind its bracket fails at a mismatch of its bounds, or its bounds are
no interval. -/
theorem interval_eq_error (h : interval s = .error e) :
    (∃ t, e = .mismatch t) ∨ ∃ t, afterBlanks s = '[' :: t ∧
      ((∃ r, e = .committed r ∧ bounds t = .error (.mismatch r)) ∨
        ∃ lower upper r cause, bounds t = .ok ((lower, upper), r) ∧
          Interval.ofEnds lower upper = .error cause ∧ e = .malformed t cause) := by
  rcases bind_eq_error_iff.mp (token_eq_error_iff.mp h) with h | ⟨⟨⟩, t, hopen, h⟩
  · exact .inl ⟨_, literal_eq_error h⟩
  refine .inr ⟨t, literal_eq_ok_iff.mp hopen, ?_⟩
  cases hbounds : bounds t with
  | ok result =>
      obtain ⟨⟨lower, upper⟩, r⟩ := result
      cases hends : Interval.ofEnds lower upper with
      | ok i => simp [commit, form, hbounds, hends] at h
      | error cause =>
          simp only [commit, form, hbounds, hends, Except.error.injEq] at h
          exact .inr ⟨lower, upper, r, cause, rfl, hends, h.symm⟩
  | error failure =>
      obtain ⟨r, rfl⟩ := bounds_eq_error hbounds
      simp only [commit, form, hbounds, Except.error.injEq] at h
      exact .inl ⟨r, h.symm, rfl⟩

/-- An interval that fails for good at a mismatch has been begun behind its bracket. -/
theorem begun_of_interval (h : interval s = .error (.committed r)) :
    ∃ t, afterBlanks s = '[' :: t ∧ Begun t r := by
  rcases interval_eq_error h with ⟨_, he⟩ | ⟨t, ht, ⟨_, he, hbounds⟩ | ⟨_, _, _, _, _, _, he⟩⟩
  · cases he
  · cases he
    exact ⟨t, ht, begun_of_bounds hbounds⟩
  · cases he

/-- Blanks before an interval make no difference. -/
theorem interval_afterBlanks (h : interval s = .error e) : interval (afterBlanks s) = .error e := by
  rw [interval, token_eq_error_iff] at h ⊢
  rwa [afterBlanks_afterBlanks]

/-- Where the language mismatches, so does an operand of temporal operators, and nothing but
blanks has been passed. -/
theorem formula_eq_mismatch (h : formula s = .error (.mismatch m)) :
    unary formula s = .error (.mismatch m) ∧ m = afterBlanks s := by
  have hformula : Level.formula.reader formula s = .error (.mismatch m) := by
    rw [← formula_eq_reader]
    exact h
  have hdisjunction : Level.disjunction.reader formula s = .error (.mismatch m) :=
    reader_eq_mismatch (reader_eq_mismatch hformula)
  have hunary : Level.unary.reader formula s = .error (.mismatch m) :=
    reader_eq_mismatch (reader_eq_mismatch (reader_eq_mismatch hdisjunction))
  have hadditive : Level.additive.reader formula s = .error (.mismatch m) :=
    reader_eq_mismatch (reader_eq_mismatch hunary)
  exact ⟨hunary, atom_eq_mismatch (reader_eq_mismatch (reader_eq_mismatch hadditive))⟩

end Grammar

/-- The three places from which an error quotes the rest of the text, if no interval is
malformed. -/
inductive Quotation where
  | unread
  | whole
  | unfinished
  deriving DecidableEq

open Grammar Reader

/-- The error of a text quotes what the text has from one of these places on. -/
inductive Quotes (text : String) : ParseError → Quotation → Prop
  /-- A formula ends before the rest. -/
  | unread {part rest : String} {f : Formula} (htext : text = part ++ rest)
      (hpart : parse part = .ok f) (hrest : rest ≠ "")
      (hblank : ∀ c t, rest.toList = c :: t → c.isWhitespace = false) :
      Quotes text (.incomplete rest) .unread
  /-- Behind the blanks at the beginning no operand of a temporal operator is read. -/
  | whole {rest : String} (htext : rest.toList = afterBlanks text.toList)
      (hunary : unary formula rest.toList = .error (.mismatch rest.toList)) :
      Quotes text (.mismatch rest) .whole
  /-- An interval that has been opened behind the word of a temporal operator fails. -/
  | unfinished {before opening m rest word : String}
      (htext : text = before ++ opening ++ "[" ++ m ++ rest) (hword : word ∈ temporalWords)
      (hopening : Spaced (Token.word word).Reads opening.toList [])
      (hbegun : Begun m.toList [])
      (hinterval : interval ("[" ++ m ++ rest).toList = .error (.committed rest.toList)) :
      Quotes text (.mismatch rest) .unfinished

variable {text : String} {rest : List Char} {e : ParseError}

/-- What is left after a formula begins with no blank. -/
theorem quotes_unread {f : Formula} (h : token formula text.toList = .ok (f, rest))
    (hrest : rest ≠ []) : Quotes text (.incomplete (.ofList rest)) .unread := by
  obtain ⟨part, htext, hpart, htrim⟩ := exists_parseChars_of_token h
  have hparse : parse (.ofList part) = .ok f := by
    rw [parse, String.toList_ofList]
    exact hpart
  refine .unread (String.toList_inj.mp ?_) hparse ?_ ?_
  · simpa using htext
  · simpa using hrest
  · intro c t hct
    rw [String.toList_ofList] at hct
    subst hct
    exact head_afterBlanks htrim

theorem quotes_whole (h : token formula text.toList = .error (.mismatch rest)) :
    Quotes text (.mismatch (.ofList rest)) .whole := by
  obtain ⟨hunary, hrest⟩ := formula_eq_mismatch (token_eq_error_iff.mp h)
  rw [afterBlanks_afterBlanks] at hrest
  rw [← hrest] at hunary
  exact .whole (by rwa [String.toList_ofList]) (by rwa [String.toList_ofList])

/-- What fails for good at a mismatch is an interval behind the word of a temporal operator. -/
theorem quotes_unfinished (h : token formula text.toList = .error (.committed rest)) :
    Quotes text (.mismatch (.ofList rest)) .unfinished := by
  cases orderly_formula.token.located h with
  | inside ht hfaulty =>
      obtain ⟨before, htext⟩ := ht
      obtain ⟨word, hword, u, hreads, hinterval⟩ := hfaulty
      obtain ⟨v, hv, hbegun⟩ := begun_of_interval hinterval
      have hopens := hreads.append_blanks (blanks_afterBlanks u)
      have hfails := interval_afterBlanks hinterval
      rw [hv] at hopens hfails
      obtain ⟨opening, rfl, hopening⟩ := hopens.cut_token.alone
      obtain ⟨m, rfl, hm⟩ := hbegun.cut.alone
      have hsplit : text = .ofList before ++ .ofList opening ++ "[" ++ .ofList m ++ .ofList rest :=
        String.toList_inj.mp (by simp [← htext])
      refine .unfinished hsplit hword ?_ ?_ ?_
      · rwa [String.toList_ofList]
      · rwa [String.toList_ofList]
      · simpa using hfails

/-- Every error without a malformed interval quotes the text from one of the places. -/
theorem exists_quotes (h : parse text = .error e)
    (hmalformed : ∀ rest cause, e ≠ .malformed rest cause) : ∃ q, Quotes text e q := by
  unfold parse parseChars at h
  split at h
  case h_1 => cases h
  case h_2 f rest hrest hread =>
    cases h
    exact ⟨.unread, quotes_unread hread hrest⟩
  case h_3 failure hread =>
    cases h
    cases failure with
    | mismatch rest => exact ⟨.whole, quotes_whole hread⟩
    | committed rest => exact ⟨.unfinished, quotes_unfinished hread⟩
    | malformed rest cause => exact absurd rfl (hmalformed _ cause)

/-- The rest behind a bracket is shorter than the text without the blanks at its beginning. -/
theorem toList_ne_afterBlanks (before m rest : String) :
    rest.toList ≠ afterBlanks (before ++ "[" ++ m ++ rest).toList := by
  intro hrest
  have hlt := length_lt_afterBlanks (show '['.isWhitespace = false by decide) before.toList
    (m ++ rest).toList
  have hlength := congrArg List.length hrest
  simp only [String.toList_append, List.append_assoc, List.length_append] at hlt hlength
  change _ < (afterBlanks (before.toList ++ ("[".toList ++ (m.toList ++ _)))).length at hlt
  omega

/-- No error quotes the text from two of the places. -/
theorem Quotes.unique {q q' : Quotation} (h : Quotes text e q) (h' : Quotes text e q') :
    q = q' := by
  cases h with
  | unread =>
      cases h'
      rfl
  | whole hwhole _ =>
      cases h' with
      | whole => rfl
      | unfinished htext =>
          rw [htext] at hwhole
          exact absurd hwhole (toList_ne_afterBlanks _ _ _)
  | unfinished htext =>
      cases h' with
      | unfinished => rfl
      | whole hwhole _ =>
          rw [htext] at hwhole
          exact absurd hwhole (toList_ne_afterBlanks _ _ _)

/-- What the error of a text quotes that is no formula, malformed intervals apart. It quotes what
is left behind a formula, and the text before it stands for that formula on its own; or all of the
text but the blanks at its beginning, where no operand of a temporal operator is read, wherever
the mismatch lies; or what is left of an interval that has been opened behind the word of a
temporal operator and is not finished. It does only one of these. -/
theorem existsUnique_quotation {text : String} {e : ParseError} (h : parse text = .error e)
    (hmalformed : ∀ rest cause, e ≠ .malformed rest cause) : ∃! q, Quotes text e q := by
  obtain ⟨q, hq⟩ := exists_quotes h hmalformed
  exact ⟨q, hq, fun q' hq' => hq'.unique hq⟩

instance (result : Except ParseError Formula) (rest : String) :
    Decidable (result = .error (.mismatch rest)) :=
  match result with
  | .error (.mismatch rest') => decidable_of_iff (rest' = rest) (by simp)
  | .ok _ | .error (.incomplete _) | .error (.malformed _ _) | .error (.unavailable _) =>
      isFalse nofun

instance (result : Except ParseError Formula) (rest : String) :
    Decidable (result = .error (.incomplete rest)) :=
  match result with
  | .error (.incomplete rest') => decidable_of_iff (rest' = rest) (by simp)
  | .ok _ | .error (.mismatch _) | .error (.malformed _ _) | .error (.unavailable _) =>
      isFalse nofun

/-- A conjunction without its second operand, one that is not closed, and an interval that is
not. -/
theorem quotations_unfinishedTexts :
    (parse "a and" = .error (.incomplete "and") ∧
      ∃! q, Quotes "a and" (.incomplete "and") q) ∧
    (parse " (a and once[2,3] b" = .error (.mismatch "(a and once[2,3] b") ∧
      ∃! q, Quotes " (a and once[2,3] b" (.mismatch "(a and once[2,3] b") q) ∧
    parse "a since[2, b]" = .error (.mismatch "b]") ∧
      ∃! q, Quotes "a since[2, b]" (.mismatch "b]") q := by
  have hunread : parse "a and" = .error (.incomplete "and") := by decide +kernel
  have hwhole : parse " (a and once[2,3] b" = .error (.mismatch "(a and once[2,3] b") := by
    decide +kernel
  have hunfinished : parse "a since[2, b]" = .error (.mismatch "b]") := by decide +kernel
  exact ⟨⟨hunread, existsUnique_quotation hunread nofun⟩,
    ⟨hwhole, existsUnique_quotation hwhole nofun⟩,
    hunfinished, existsUnique_quotation hunfinished nofun⟩

end SignalLogic
