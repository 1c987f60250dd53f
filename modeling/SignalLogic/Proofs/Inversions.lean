import SignalLogic.Proofs.Grammar.Admission
import SignalLogic.Proofs.Grammar.Openings
import SignalLogic.Proofs.Quotations

/-!
# Inverted intervals

An interval is inverted when its lower bound is greater than its upper one. Where nothing else
keeps a text from standing for a formula, the leftmost inverted interval is the one that is
reported. And nothing but an inverted interval is ever reported as malformed.
-/

namespace SignalLogic

open Grammar Reader

/-- Bounds in the wrong order and a closing bracket begin the text. -/
def Inverted (lower upper : Offset) (s : List Char) : Prop :=
  upper < lower ∧ ∃ r, Ends lower (.finite upper) s r

/-- The leftmost of the inverted intervals of a text, given by its bounds and by what stands
behind its opening bracket. -/
structure FirstInverted (text : List Char) (lower upper : Offset) (rest : List Char) : Prop where
  opened : '[' :: rest <:+ text
  inverted : Inverted lower upper rest
  leftmost : ∀ l u t, '[' :: t <:+ text → Inverted l u t → t.length ≤ rest.length

variable {s t : List Char} {lower upper : Offset} {e : Failure} {ws : List Bracket} {w : Bracket}

/-- A text has one leftmost inverted interval at most. -/
theorem FirstInverted.unique {lower' upper' : Offset} {t' : List Char}
    (h : FirstInverted s lower upper t) (h' : FirstInverted s lower' upper' t') :
    t = t' ∧ lower = lower' ∧ upper = upper' := by
  have hle := h.leftmost _ _ _ h'.opened h'.inverted
  have hge := h'.leftmost _ _ _ h.opened h.inverted
  have hsuffix : '[' :: t <:+ '[' :: t' :=
    List.suffix_of_suffix_length_le h.opened h'.opened (by simpa using hge)
  obtain rfl : t = t' := by
    have heq := hsuffix.eq_of_length_le (by simpa using hle)
    exact (List.cons.inj heq).2
  obtain ⟨-, r, hends⟩ := h.inverted
  obtain ⟨-, r', hends'⟩ := h'.inverted
  obtain ⟨hlower, hupper⟩ := hends.unique hends'
  exact ⟨rfl, hlower, Endpoint.finite.inj hupper⟩

/-- Only the order of the bounds keeps them from being those of an interval. -/
theorem ofEnds_eq_error {upper : Endpoint} {cause : FormationError}
    (h : Interval.ofEnds lower upper = .error cause) :
    ∃ u, upper = .finite u ∧ u < lower ∧ cause = .invertedInterval lower u := by
  cases upper with
  | finite u =>
      by_cases hle : lower ≤ u
      · simp [Interval.ofEnds, Interval.between, hle] at h
      · simp only [Interval.ofEnds, Interval.between, hle, dite_false, Except.error.injEq] at h
        exact ⟨u, rfl, UInt64.not_le.mp hle, h.symm⟩
  | infinite => cases h

theorem Grammar.Bracket.inverted_of_fault (hw : w.Stands) (h : w.fault? = some e) :
    ∃ upper, Inverted w.lower upper w.rest ∧
      e = .malformed w.rest (.invertedInterval w.lower upper) := by
  unfold Bracket.fault? at h
  split at h
  case h_1 => cases h
  case h_2 cause hcause =>
    obtain ⟨upper, hupper, hlt, rfl⟩ := ofEnds_eq_error hcause
    obtain ⟨r, hends⟩ := hw
    rw [hupper] at hends
    exact ⟨upper, ⟨hlt, r, hends⟩, (Option.some.inj h).symm⟩

theorem Grammar.Bracket.not_inverted (hw : w.Stands) (h : w.fault? = none) :
    ¬ Inverted lower upper w.rest := by
  rintro ⟨hlt, r, hends⟩
  obtain ⟨r', hends'⟩ := hw
  obtain ⟨hlower, hupper⟩ := hends'.unique hends
  unfold Bracket.fault? at h
  split at h
  case h_1 i hi =>
    obtain ⟨hl, hu⟩ := ofEnds_eq_ok_iff.mp hi
    have hordered := i.ordered
    rw [hl, hu, hlower, hupper] at hordered
    exact UInt64.not_le.mpr hlt (Endpoint.finite_le_finite.mp hordered)
  case h_2 => cases h

/-- Without a failure no interval of the text is inverted. -/
theorem Grammar.Admits.not_inverted {shape : Shape} (h : Admits shape ws s [])
    (hfault : firstFault? ws = none) (ht : '[' :: t <:+ s) : ¬ Inverted lower upper t := by
  rw [← mem_openings_iff, h.openings_eq, openings, List.append_nil] at ht
  obtain ⟨w, hw, rfl⟩ := List.mem_map.mp ht
  exact w.not_inverted (h.stands w hw) (List.findSome?_eq_none_iff.mp hfault w hw)

/-- The first failure is that of the leftmost inverted interval. -/
theorem Grammar.Admits.firstInverted {shape : Shape} (h : Admits shape ws s [])
    (hfault : firstFault? ws = some e) :
    ∃ lower upper rest, FirstInverted s lower upper rest ∧
      e = .malformed rest (.invertedInterval lower upper) := by
  obtain ⟨before, w, after, rfl, hw, hbefore⟩ := List.findSome?_eq_some_iff.mp hfault
  have hopenings : openings s = before.map Bracket.rest ++ w.rest :: after.map Bracket.rest := by
    rw [h.openings_eq]
    simp [openings]
  obtain ⟨upper, hinverted, rfl⟩ := w.inverted_of_fault (h.stands w (by simp)) hw
  refine ⟨w.lower, upper, w.rest, ⟨?_, hinverted, ?_⟩, rfl⟩
  · rw [← mem_openings_iff, hopenings]
    simp
  · intro l u t ht hl
    rw [← mem_openings_iff, hopenings, List.mem_append, List.mem_cons] at ht
    rcases ht with ht | rfl | ht
    · obtain ⟨v, hv, rfl⟩ := List.mem_map.mp ht
      exact absurd hl (v.not_inverted (h.stands v (by simp [hv])) (hbefore v hv))
    · exact le_rfl
    · have hpairwise := pairwise_openings s
      rw [hopenings, List.pairwise_append, List.pairwise_cons] at hpairwise
      exact (hpairwise.2.1.1 t ht).le

/-- The language is read to the end of an admitted text, or it fails there for good. -/
theorem Grammar.Admits.formula_decides (h : Admits (.whole .formula) ws s []) :
    Decides formula (afterBlanks s) (firstFault? ws) [] :=
  (h.decided (fun _ ht => within_of_lt ht) (.nothing rfl)).congr (formula_apply _)

theorem Grammar.Admits.exists_parseChars (h : Admits (.whole .formula) ws s [])
    (hfault : firstFault? ws = none) : ∃ f, parseChars s = .ok f := by
  have hdecides := h.formula_decides
  rw [hfault] at hdecides
  obtain ⟨f, hf⟩ := hdecides.exists_ok
  have htoken : token formula s = .ok (f, []) := token_eq_ok_iff.mpr ⟨[], hf, rfl⟩
  exact ⟨f, by rw [parseChars, htoken]⟩

theorem Grammar.Admits.parseChars_eq_error (h : Admits (.whole .formula) ws s [])
    (hfault : firstFault? ws = some e) : parseChars s = .error (.ofFailure e) := by
  have hdecides := h.formula_decides
  rw [hfault] at hdecides
  rw [parseChars, token_apply_error hdecides.eq_error]

/-- Only the order of its bounds tells a derived text from an admitted one. -/
theorem exists_derives_iff_admits :
    (∃ f, Derives (.whole .formula) f s []) ↔
      (∃ ws, Admits (.whole .formula) ws s []) ∧
        ∀ lower upper t, '[' :: t <:+ s → ¬ Inverted lower upper t := by
  constructor
  · rintro ⟨f, hf⟩
    obtain ⟨ws, h⟩ := hf.admits
    refine ⟨⟨ws, h⟩, fun _ _ _ => h.not_inverted ?_⟩
    cases hfault : firstFault? ws with
    | none => rfl
    | some e => cases (parseChars_eq_ok_iff.mpr hf).symm.trans (h.parseChars_eq_error hfault)
  · rintro ⟨⟨ws, h⟩, hnot⟩
    cases hfault : firstFault? ws with
    | none =>
        obtain ⟨f, hf⟩ := h.exists_parseChars hfault
        exact ⟨f, parseChars_eq_ok_iff.mp hf⟩
    | some e =>
        obtain ⟨lower, upper, rest, hfirst, -⟩ := h.firstInverted hfault
        exact absurd hfirst.inverted (hnot _ _ _ hfirst.opened)

/-- What is malformed is an inverted interval, wherever it stands. -/
theorem inverted_of_malformed {rest : List Char} {cause : FormationError}
    (h : formula s = .error (.malformed rest cause)) :
    ∃ lower upper, cause = .invertedInterval lower upper ∧ '[' :: rest <:+ s ∧
      Inverted lower upper rest := by
  cases orderly_formula.located h with
  | @inside t _ ht hfaulty =>
      obtain ⟨word, -, m, hreads, hinterval⟩ := hfaulty
      rcases interval_eq_error hinterval with ⟨_, he⟩ | ⟨u, hu, ⟨_, he, -⟩ | hbounds⟩
      · cases he
      · cases he
      · obtain ⟨lower, upper, r, cause, hbounds, hcause, he⟩ := hbounds
        cases he
        obtain ⟨u, rfl, hlt, rfl⟩ := ofEnds_eq_error hcause
        have hm : '[' :: rest <:+ m := hu ▸ List.dropWhile_suffix Char.isWhitespace
        exact ⟨lower, u, rfl, (hm.trans hreads.cut_token.suffix).trans ht, hlt, r,
          ends_of_bounds hbounds⟩

theorem inverted_of_parseChars {rest : String} {cause : FormationError}
    (h : parseChars s = .error (.malformed rest cause)) :
    ∃ lower upper, cause = .invertedInterval lower upper ∧ '[' :: rest.toList <:+ s ∧
      Inverted lower upper rest.toList := by
  unfold parseChars at h
  split at h
  case h_1 => cases h
  case h_2 => cases h
  case h_3 failure hread =>
    cases failure with
    | mismatch | committed => cases h
    | malformed rest cause =>
        cases h
        obtain ⟨lower, upper, hcause, hsuffix, hinverted⟩ :=
          inverted_of_malformed (token_eq_error_iff.mp hread)
        rw [String.toList_ofList]
        exact ⟨lower, upper, hcause, hsuffix.trans (List.dropWhile_suffix Char.isWhitespace),
          hinverted⟩

/-- Inverted intervals are reported as such, the leftmost first. The texts that are parsed are those
that the grammar admits but for the order of bounds and in which no interval is inverted. If one is
inverted in an admitted text, the error holds the bounds of the leftmost and quotes what stands
behind its opening bracket. Of any text, whatever is reported as malformed is an inverted interval,
and the bounds that the error holds begin the text that it quotes. -/
theorem parse_inverted (text : String) :
    ((∃ f, parse text = .ok f) ↔
      (∃ ws, Admits (.whole .formula) ws text.toList []) ∧
        ∀ lower upper t, '[' :: t <:+ text.toList → ¬ Inverted lower upper t) ∧
    ((∃ ws, Admits (.whole .formula) ws text.toList []) →
      (∃ lower upper t, '[' :: t <:+ text.toList ∧ Inverted lower upper t) →
      ∃ lower upper rest, FirstInverted text.toList lower upper rest ∧
        parse text = .error (.malformed (.ofList rest) (.invertedInterval lower upper))) ∧
    ∀ rest cause, parse text = .error (.malformed rest cause) →
      ∃ lower upper, cause = .invertedInterval lower upper ∧
        '[' :: rest.toList <:+ text.toList ∧ Inverted lower upper rest.toList := by
  refine ⟨?_, ?_, fun rest cause h => inverted_of_parseChars h⟩
  · have hparse f : parse text = .ok f ↔ Derives (.whole .formula) f text.toList [] :=
      parseChars_eq_ok_iff
    rw [exists_congr hparse, exists_derives_iff_admits]
  · rintro ⟨ws, h⟩ ⟨lower, upper, t, ht, hinverted⟩
    cases hfault : firstFault? ws with
    | none => exact absurd hinverted (h.not_inverted hfault ht)
    | some e =>
        obtain ⟨lower, upper, rest, hfirst, rfl⟩ := h.firstInverted hfault
        exact ⟨lower, upper, rest, hfirst, h.parseChars_eq_error hfault⟩

/-- Of two inverted intervals the left one is reported, though the right one stands in its
operand. -/
theorem parse_inverted_once :
    (∃ ws, Admits (.whole .formula) ws "once[3,1] once[5,2] a".toList []) ∧
      FirstInverted "once[3,1] once[5,2] a".toList 3 1 "3,1] once[5,2] a".toList ∧
      parse "once[3,1] once[5,2] a" =
        .error (.malformed "3,1] once[5,2] a" (.invertedInterval 3 1)) := by
  have hvariable : Admits (.whole .unary) [] " a".toList [] := by
    have hsegment : IsSegment "a" := ⟨⟨'a', [], rfl, rfl, by simp⟩, by decide⟩
    have hpath : Path ["a"] ['a'] [] := .last hsegment nofun
    have hatom : Admits (.whole .atom) [] " a".toList [] :=
      .reference ⟨['a'], [], .skip rfl .refl, ⟨["a"], hpath, .plain⟩, .refl⟩
    exact .loosen .unary (.loosen .relational (.loosen .additive (.loosen .multiplicative hatom)))
  have hmem : (Token.word "once", Operator.unaryTemporal .once) ∈ leadingSigns := by
    simp [leadingSigns, leadingOperators, temporals, UnaryOp.operator]
  have hinner : Sign leadingSigns [⟨5, .finite 2, "5,2] a".toList⟩]
      " once[5,2] a".toList " a".toList :=
    .windowed hmem rfl (Token.spaced_of_reader (by rfl)).1 ⟨.refl, ends_of_bounds (by rfl)⟩
  have houter : Sign leadingSigns [⟨3, .finite 1, "3,1] once[5,2] a".toList⟩]
      "once[3,1] once[5,2] a".toList " once[5,2] a".toList :=
    .windowed hmem rfl (Token.spaced_of_reader (by rfl)).1 ⟨.refl, ends_of_bounds (by rfl)⟩
  have hadmits : ∃ ws, Admits (.whole .formula) ws "once[3,1] once[5,2] a".toList [] :=
    ⟨_, .loosen .formula (.loosen .implication (.loosen .disjunction (.loosen .conjunction
      (.loosen .binaryTemporal (.leading houter (.leading hinner hvariable))))))⟩
  have hopenings : openings "once[3,1] once[5,2] a".toList =
      ["3,1] once[5,2] a".toList, "5,2] a".toList] := by decide
  have hfirst : FirstInverted "once[3,1] once[5,2] a".toList 3 1 "3,1] once[5,2] a".toList := by
    refine ⟨?_, ⟨by decide, _, ends_of_bounds (by rfl)⟩, ?_⟩
    · rw [← mem_openings_iff, hopenings]
      simp
    · intro l u t ht _
      rw [← mem_openings_iff, hopenings] at ht
      simp only [List.mem_cons, List.not_mem_nil, or_false] at ht
      rcases ht with rfl | rfl <;> decide
  obtain ⟨lower, upper, rest, hfirst', hparse⟩ :=
    (parse_inverted "once[3,1] once[5,2] a").2.1 hadmits
      ⟨3, 1, _, hfirst.opened, hfirst.inverted⟩
  obtain ⟨rfl, rfl, rfl⟩ := hfirst.unique hfirst'
  exact ⟨hadmits, hfirst, hparse⟩

end SignalLogic
