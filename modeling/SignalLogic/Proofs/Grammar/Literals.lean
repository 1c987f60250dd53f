import SignalLogic.Proofs.Grammar.Lexing

/-!
# Reading numbers, intervals and variables

Digits and the segments of variables are read up to the first character that cannot go
on with them, so each of these lexemes is read whole wherever the grammar lets it end.
-/

namespace SignalLogic.Grammar

open Reader

variable {s m r : List Char}

/-- No number goes on here. -/
def NumberEnd (r : List Char) : Prop :=
  ∀ c t, r = c :: t → c.isDigit = false ∧ c ≠ '.'

theorem digits_eq_ok_iff {ds : List Char} :
    digits s = .ok (ds, r) ↔
      Digits ds ∧ s = ds ++ r ∧ ∀ c t, r = c :: t → c.isDigit = false := by
  rw [digits, run_eq_ok_iff, Digits]
  tauto

theorem digits_mismatch (h : ∀ c t, s = c :: t → c.isDigit = false) :
    digits s = .error (.mismatch s) := by
  refine run_mismatch ?_
  cases s with
  | nil => rfl
  | cons c t => simp [h c t rfl]

theorem Digits.head {ds : List Char} (h : Digits ds) :
    ∃ c t, ds = c :: t ∧ c.isDigit = true := by
  cases ds with
  | nil => exact absurd rfl h.1
  | cons c t => exact ⟨c, t, rfl, h.2 c (by simp)⟩

theorem Magnitude.head {d : Decimal} (h : Magnitude d s r) :
    ∃ c t, s = c :: (t ++ r) ∧ c.isDigit = true := by
  cases h with
  | whole h =>
      obtain ⟨c, t, rfl, hc⟩ := h.head
      exact ⟨c, t, rfl, hc⟩
  | @point ds fs _ h _ =>
      obtain ⟨c, t, rfl, hc⟩ := h.head
      exact ⟨c, t ++ '.' :: fs, by simp, hc⟩

theorem number_of_ok {x : Value} (h : number s = .ok (x, r)) : Number x s r := by
  obtain ⟨⟨negative, d⟩, m, hd, hx⟩ := bind_eq_ok_iff.mp h
  obtain ⟨rfl, rfl⟩ := pure_eq_ok_iff.mp hx
  obtain ⟨minus, s', hminus, hd⟩ := bind_eq_ok_iff.mp hd
  obtain ⟨ds, s₁, hds, hd⟩ := bind_eq_ok_iff.mp hd
  obtain ⟨fraction, s₂, hfraction, hd⟩ := bind_eq_ok_iff.mp hd
  obtain ⟨hpair, rfl⟩ := pure_eq_ok_iff.mp hd
  obtain ⟨rfl, rfl⟩ := Prod.mk.inj hpair
  obtain ⟨hwhole, rfl, -⟩ := digits_eq_ok_iff.mp hds
  have hmagnitude : Magnitude (.ofDigits ds (fraction.getD [])) (ds ++ s₁) s₂ := by
    rcases optional_eq_ok hfraction with ⟨fs, rfl, hp⟩ | ⟨rfl, rfl⟩
    · obtain ⟨⟨⟩, m, hpoint, hfs⟩ := bind_eq_ok_iff.mp hp
      obtain rfl := literal_eq_ok_iff.mp hpoint
      obtain ⟨hplaces, rfl, -⟩ := digits_eq_ok_iff.mp hfs
      exact .point hwhole hplaces
    · exact .whole hwhole
  rcases optional_eq_ok hminus with ⟨⟨⟩, rfl, hsign⟩ | ⟨rfl, rfl⟩
  · obtain rfl := literal_eq_ok_iff.mp hsign
    exact .negative hmagnitude
  · exact .positive hmagnitude

/-- After the optional minus sign a magnitude is read whole. -/
theorem signedDecimal_of_magnitude {minus : Option Unit} {d : Decimal}
    (hminus : optional (literal "-") s = .ok (minus, m)) (h : Magnitude d m r)
    (hr : NumberEnd r) : signedDecimal s = .ok ((minus.isSome, d), r) := by
  refine bind_eq_ok_iff.mpr ⟨minus, m, hminus, ?_⟩
  cases h with
  | @whole ds _ hds =>
      refine bind_eq_ok_iff.mpr ⟨ds, r, ?_, ?_⟩
      · exact digits_eq_ok_iff.mpr ⟨hds, rfl, fun c t h => (hr c t h).1⟩
      · have hpoint : literal "." r = .error (.mismatch r) := by
          refine literal_mismatch ?_
          rintro ⟨t, rfl⟩
          exact (hr '.' t rfl).2 rfl
        exact bind_eq_ok_iff.mpr
          ⟨none, r, optional_of_mismatch (bind_apply_error hpoint), rfl⟩
  | @point ds fs _ hds hfs =>
      refine bind_eq_ok_iff.mpr ⟨ds, '.' :: (fs ++ r), ?_, ?_⟩
      · refine digits_eq_ok_iff.mpr ⟨hds, rfl, ?_⟩
        rintro c t h
        cases h
        rfl
      · refine bind_eq_ok_iff.mpr ⟨some fs, r, optional_of_ok ?_, rfl⟩
        refine bind_eq_ok_iff.mpr ⟨(), fs ++ r, literal_eq_ok_iff.mpr rfl, ?_⟩
        exact digits_eq_ok_iff.mpr ⟨hfs, rfl, fun c t h => (hr c t h).1⟩

theorem number_of_number {x : Value} (h : Number x s r) (hr : NumberEnd r) :
    number s = .ok (x, r) := by
  cases h with
  | positive h =>
      obtain ⟨c, t, rfl, hc⟩ := h.head
      have hne : '-' ≠ c := by
        rintro rfl
        exact absurd hc (by decide)
      have hminus : literal "-" (c :: (t ++ r)) = .error (.mismatch (c :: (t ++ r))) :=
        literal_mismatch_of_head rfl hne
      exact bind_eq_ok_iff.mpr ⟨_, r,
        signedDecimal_of_magnitude (optional_of_mismatch hminus) h hr, rfl⟩
  | @negative d s _ h =>
      have hminus : literal "-" ('-' :: s) = .ok ((), s) := literal_eq_ok_iff.mpr rfl
      exact bind_eq_ok_iff.mpr ⟨_, r,
        signedDecimal_of_magnitude (optional_of_ok hminus) h hr, rfl⟩

/-- A number begins with a digit, perhaps after a minus sign. -/
theorem Number.head {x : Value} (h : Number x s r) :
    (∃ c t, s = c :: (t ++ r) ∧ c.isDigit = true) ∨
      ∃ c t, s = '-' :: c :: (t ++ r) ∧ c.isDigit = true := by
  cases h with
  | positive h => exact .inl h.head
  | negative h =>
      obtain ⟨c, t, rfl, hc⟩ := h.head
      exact .inr ⟨c, t, rfl, hc⟩

theorem isDigit_eq_false_of_isWhitespace {c : Char} (h : c.isWhitespace = true) :
    c.isDigit = false := by
  rw [isWhitespace_iff] at h
  rw [← Bool.not_eq_true, isDigit_iff]
  omega

theorem isWhitespace_eq_false_of_isDigit {c : Char} (h : c.isDigit = true) :
    c.isWhitespace = false := by
  rw [← Bool.not_eq_true]
  intro hblank
  rw [isDigit_eq_false_of_isWhitespace hblank] at h
  exact Bool.false_ne_true h

theorem solid_number (x : Value) : Solid (Number x) := by
  intro s r h
  rcases h.head with ⟨c, t, rfl, hc⟩ | ⟨c, t, rfl, -⟩
  · exact ⟨c, t, rfl, isWhitespace_eq_false_of_isDigit hc⟩
  · exact ⟨'-', c :: t, rfl, rfl⟩

/-- Nothing else is read as a number. -/
theorem number_mismatch (h : ∀ c t, s = c :: t → c.isDigit = false)
    (h' : ∀ c t, s = '-' :: c :: t → c.isDigit = false) :
    ∃ m, number s = .error (.mismatch m) := by
  have hdigits {minus : Option Unit} {m : List Char}
      (hminus : optional (literal "-") s = .ok (minus, m))
      (hm : ∀ c t, m = c :: t → c.isDigit = false) :
      number s = .error (.mismatch m) := by
    refine bind_apply_error ?_
    rw [signedDecimal, bind_apply_ok hminus]
    exact bind_apply_error (digits_mismatch hm)
  by_cases hpre : "-".toList <+: s
  · obtain ⟨t, rfl⟩ := hpre
    refine ⟨t, hdigits (optional_of_ok (literal_eq_ok_iff.mpr rfl)) ?_⟩
    rintro c u rfl
    exact h' c u rfl
  · exact ⟨s, hdigits (optional_of_mismatch (literal_mismatch hpre)) h⟩

theorem ofEnds_eq_ok_iff {lower : Offset} {upper : Endpoint} {i : Interval} :
    Interval.ofEnds lower upper = .ok i ↔ i.lower = lower ∧ i.upper = upper := by
  cases upper with
  | finite upper => exact Interval.between_eq_ok_iff
  | infinite =>
      cases i
      simp [Interval.ofEnds, Interval.unbounded, eq_comm]

theorem offset_eq_ok_iff {n : Offset} :
    offset s = .ok (n, r) ↔
      Bound (.finite n) s r ∧ ∀ c t, r = c :: t → c.isDigit = false := by
  rw [offset, filterMap_eq_ok_iff]
  constructor
  · rintro ⟨ds, hds, hn⟩
    obtain ⟨hdigits, rfl, hr⟩ := digits_eq_ok_iff.mp hds
    exact ⟨.finite hdigits (Offset.ofNat?_eq_some_iff.mp hn), hr⟩
  · rintro ⟨hbound, hr⟩
    cases hbound with
    | finite hdigits hn =>
        exact ⟨_, digits_eq_ok_iff.mpr ⟨hdigits, rfl, hr⟩, Offset.ofNat?_eq_some_iff.mpr hn⟩

theorem bound_of_endpoint {e : Endpoint} (h : endpoint s = .ok (e, r)) : Bound e s r := by
  rcases orElse_eq_ok h with h | h
  · obtain ⟨⟨⟩, m, hinf, he⟩ := bind_eq_ok_iff.mp h
    obtain ⟨rfl, rfl⟩ := pure_eq_ok_iff.mp he
    obtain rfl := literal_eq_ok_iff.mp hinf
    exact .infinite
  · obtain ⟨n, hn, rfl⟩ := map_eq_ok_iff.mp h
    exact (offset_eq_ok_iff.mp hn).1

theorem endpoint_of_bound {e : Endpoint} (h : Bound e s r)
    (hr : ∀ c t, r = c :: t → c.isDigit = false) : endpoint s = .ok (e, r) := by
  cases h with
  | @finite n ds _ hds hn =>
      have hinf : literal "inf" (ds ++ r) = .error (.mismatch (ds ++ r)) := by
        obtain ⟨c, t, rfl, hc⟩ := hds.head
        refine literal_mismatch_of_head rfl ?_
        rintro rfl
        exact absurd hc (by decide)
      refine (orElse_of_mismatch (bind_apply_error hinf)).trans ?_
      exact map_eq_ok_iff.mpr ⟨n, offset_eq_ok_iff.mpr ⟨.finite hds hn, hr⟩, rfl⟩
  | infinite =>
      have hinf : literal "inf" ("inf".toList ++ r) = .ok ((), r) := literal_eq_ok_iff.mpr rfl
      rw [endpoint, choice_cons (by simp)]
      exact orElse_of_ok (bind_apply_ok hinf)

theorem solid_bound (e : Endpoint) : Solid (Bound e) := by
  intro s r h
  cases h with
  | finite hds _ =>
      obtain ⟨c, t, rfl, hc⟩ := hds.head
      exact ⟨c, t, rfl, isWhitespace_eq_false_of_isDigit hc⟩
  | infinite => exact ⟨'i', ['n', 'f'], rfl, rfl⟩

/-- What is read of bounds stands there. -/
theorem ends_of_bounds {lower : Offset} {upper : Endpoint}
    (h : bounds s = .ok ((lower, upper), r)) : Ends lower upper s r := by
  obtain ⟨_, s₁, hlower, h⟩ := bind_eq_ok_iff.mp h
  obtain ⟨⟨⟩, s₂, hcomma, h⟩ := bind_eq_ok_iff.mp h
  obtain ⟨_, s₃, hupper, h⟩ := bind_eq_ok_iff.mp h
  obtain ⟨⟨⟩, s₄, hclose, h⟩ := bind_eq_ok_iff.mp h
  obtain ⟨hpair, rfl⟩ := pure_eq_ok_iff.mp h
  obtain ⟨rfl, rfl⟩ := Prod.mk.inj hpair
  refine ⟨s₁, s₂, s₃, ?_, ?_, ?_, ?_⟩
  · exact (spaced_of_token (fun h => (offset_eq_ok_iff.mp h).1) hlower).1
  · exact ⟨s₁, s₂, .refl, literal_eq_ok_iff.mp hcomma, .refl⟩
  · exact (spaced_of_token bound_of_endpoint hupper).1
  · exact ⟨s₃, s₄, .refl, literal_eq_ok_iff.mp hclose, .refl⟩

/-- Bounds are read in whatever order they come, up to the closing bracket. -/
theorem bounds_of_ends {lower : Offset} {upper : Endpoint} (h : Ends lower upper s r) :
    ∃ m, bounds s = .ok ((lower, upper), m) ∧ Blanks m r := by
  obtain ⟨s₁, s₂, s₃, hlower, hcomma, hupper, hclose⟩ := h
  obtain ⟨m₂, hcomma, hm₂⟩ := hcomma.exists_of_solid (Token.solid_reads (by decide))
  obtain ⟨m, hclose, hm⟩ := hclose.exists_of_solid (Token.solid_reads (by decide))
  -- A bound is followed by blanks and a comma or a bracket, hence by no digit.
  have hend {d : Char} (hd : d.isDigit = false) {m m' u : List Char} (hb : Blanks m m')
      (hm' : afterBlanks m' = d :: u) : ∀ c t, m = c :: t → c.isDigit = false := by
    intro c t hm
    refine head_of_afterBlanks (p := fun c => c.isDigit = false)
      (fun c => isDigit_eq_false_of_isWhitespace) ?_ hm
    rw [hb.afterBlanks_eq, hm']
    rintro _ _ ⟨⟩
    exact hd
  have hreadLower : token offset s = .ok (lower, afterBlanks s₁) :=
    token_of_spaced (solid_bound _)
      (fun h hb => offset_eq_ok_iff.mpr ⟨h, hend (by decide) hb hcomma⟩) hlower
  have hreadUpper : token endpoint m₂ = .ok (upper, afterBlanks s₃) :=
    token_of_spaced (solid_bound _)
      (fun h hb => endpoint_of_bound h (hend (by decide) hb hclose)) (hupper.of_blanks hm₂)
  refine ⟨m, ?_, hm⟩
  refine bind_eq_ok_iff.mpr ⟨_, _, hreadLower, ?_⟩
  refine bind_eq_ok_iff.mpr ⟨(), m₂, literal_eq_ok_iff.mpr hcomma, ?_⟩
  refine bind_eq_ok_iff.mpr ⟨_, _, hreadUpper, ?_⟩
  exact bind_eq_ok_iff.mpr ⟨(), m, literal_eq_ok_iff.mpr hclose, rfl⟩

theorem window_of_interval {i : Interval} (h : interval s = .ok (i, r)) :
    Window i s r ∧ afterBlanks r = r := by
  obtain ⟨m, hm, rfl⟩ := token_eq_ok_iff.mp h
  obtain ⟨⟨⟩, s₁, hopen, hm⟩ := bind_eq_ok_iff.mp hm
  obtain ⟨⟨lower, upper⟩, hbounds, hi⟩ := form_eq_ok_iff.mp (commit_eq_ok_iff.mp hm)
  obtain ⟨rfl, rfl⟩ := ofEnds_eq_ok_iff.mp hi
  obtain ⟨s₂, s₃, s₄, hlower, hcomma, hupper, hclose⟩ := ends_of_bounds hbounds
  refine ⟨⟨s₁, s₂, s₃, s₄, ?_, hlower, hcomma, hupper, ?_⟩, afterBlanks_afterBlanks m⟩
  · exact ⟨_, s₁, blanks_afterBlanks s, literal_eq_ok_iff.mp hopen, .refl⟩
  · exact hclose.append_blanks (blanks_afterBlanks m)

/-- The first blanks before a window may be left out. -/
theorem Window.afterBlanks {i : Interval} (h : Window i s r) :
    Window i (Reader.afterBlanks s) r := by
  obtain ⟨s₁, s₂, s₃, s₄, hopen, h⟩ := h
  exact ⟨s₁, s₂, s₃, s₄, hopen.afterBlanks (Token.solid_reads (by decide)), h⟩

/-- A window begins with a bracket. -/
theorem Window.head {i : Interval} (h : Window i s r) :
    ∃ t, Reader.afterBlanks s = '[' :: t := by
  obtain ⟨s₁, _, _, _, hopen, -⟩ := h
  obtain ⟨m, hm, -⟩ := hopen.exists_of_solid (Token.solid_reads (by decide))
  exact ⟨m, hm⟩

theorem interval_of_window {i : Interval} (h : Window i s r) :
    interval s = .ok (i, afterBlanks r) := by
  obtain ⟨s₁, s₂, s₃, s₄, hopen, hlower, hends⟩ := h
  obtain ⟨m₁, hopen, hm₁⟩ := hopen.exists_of_solid (Token.solid_reads (by decide))
  obtain ⟨m, hbounds, hm⟩ := bounds_of_ends ⟨s₂, s₃, s₄, hlower.of_blanks hm₁, hends⟩
  refine token_eq_ok_iff.mpr ⟨m, ?_, hm.afterBlanks_eq.symm⟩
  refine bind_eq_ok_iff.mpr ⟨(), m₁, literal_eq_ok_iff.mpr hopen, ?_⟩
  exact commit_eq_ok_iff.mpr
    (form_eq_ok_iff.mpr ⟨_, hbounds, ofEnds_eq_ok_iff.mpr ⟨rfl, rfl⟩⟩)

/-- Without a bracket there is no interval, and no failure that would be final. -/
theorem interval_mismatch (h : ∀ t, afterBlanks s ≠ '[' :: t) :
    ∃ m, interval s = .error (.mismatch m) := by
  refine ⟨_, token_apply_error (bind_apply_error (literal_mismatch ?_))⟩
  rintro ⟨t, ht⟩
  exact h t ht.symm

theorem wordEnd_dot (t : List Char) : WordEnd ('.' :: t) := by
  rintro c u ⟨⟩
  rfl

theorem identifier_eq_ok_iff {w : String} :
    identifier s = .ok (w, r) ↔
      (∃ c t, w.toList = c :: t ∧ isSegmentHead c = true ∧ ∀ d ∈ t, isSegmentTail d = true) ∧
        s = w.toList ++ r ∧ WordEnd r := by
  constructor
  · intro h
    unfold identifier at h
    split at h
    case h_1 => cases h
    case h_2 c rest =>
      split at h
      case isTrue hc =>
        cases h
        have hspan := takeWhile_dropWhile_eq_iff.mp
          (⟨rfl, rfl⟩ : rest.takeWhile isSegmentTail = _ ∧ rest.dropWhile isSegmentTail = _)
        refine ⟨⟨c, _, String.toList_ofList, hc, hspan.2.1⟩, ?_, hspan.2.2⟩
        rw [String.toList_ofList, List.cons_append, ← hspan.1]
      case isFalse => cases h
  · rintro ⟨⟨c, t, hw, hc, ht⟩, rfl, hr⟩
    obtain ⟨htake, hdrop⟩ := takeWhile_dropWhile_eq_iff.mpr
      (⟨rfl, ht, hr⟩ : t ++ r = t ++ r ∧ _ ∧ _)
    rw [hw, List.cons_append]
    simp only [identifier, hc, htake, hdrop, if_true, ← hw, String.ofList_toList]

theorem segment_eq_ok_iff {w : String} :
    segment s = .ok (w, r) ↔ IsSegment w ∧ s = w.toList ++ r ∧ WordEnd r := by
  rw [segment, filterMap_eq_ok_iff]
  constructor
  · rintro ⟨a, ha, hw⟩
    obtain ⟨hident, hs, hr⟩ := identifier_eq_ok_iff.mp ha
    split at hw
    case isTrue => cases hw
    case isFalse hreserved =>
      cases hw
      exact ⟨⟨hident, hreserved⟩, hs, hr⟩
  · rintro ⟨⟨hident, hreserved⟩, hs, hr⟩
    exact ⟨w, identifier_eq_ok_iff.mpr ⟨hident, hs, hr⟩, if_neg hreserved⟩

/-- A segment is never shorter than one character. -/
theorem IsSegment.head {w : String} (h : IsSegment w) :
    ∃ c t, w.toList = c :: t ∧ isSegmentHead c = true := by
  obtain ⟨⟨c, t, hw, hc, -⟩, -⟩ := h
  exact ⟨c, t, hw, hc⟩

/-- The reader of a point and a segment, on which a path of segments goes on. -/
def dotSegment : Reader String := do
  literal "."
  segment

theorem dotSegment_eq_ok_iff {w : String} :
    dotSegment s = .ok (w, r) ↔ IsSegment w ∧ s = '.' :: (w.toList ++ r) ∧ WordEnd r := by
  rw [dotSegment, bind_eq_ok_iff]
  constructor
  · rintro ⟨⟨⟩, m, hdot, hw⟩
    obtain rfl := literal_eq_ok_iff.mp hdot
    obtain ⟨hseg, rfl, hr⟩ := segment_eq_ok_iff.mp hw
    exact ⟨hseg, rfl, hr⟩
  · rintro ⟨hseg, rfl, hr⟩
    exact ⟨(), w.toList ++ r, literal_eq_ok_iff.mpr rfl, segment_eq_ok_iff.mpr ⟨hseg, rfl, hr⟩⟩

theorem path_of_many {w : String} {ws : List String} (hw : IsSegment w) (hm : WordEnd m)
    (h : many dotSegment m = .ok (ws, r)) : Path (w :: ws) (w.toList ++ m) r := by
  induction ws generalizing w m with
  | nil =>
      rcases many_eq_ok h with ⟨-, rfl⟩ | ⟨_, _, _, hcons, -⟩
      · exact .last hw hm
      · cases hcons
  | cons w' ws ih =>
      rcases many_eq_ok h with ⟨hnil, -⟩ | ⟨_, _, m', hcons, hstep, -, hrest⟩
      · cases hnil
      · obtain ⟨rfl, rfl⟩ := List.cons.inj hcons
        obtain ⟨hw', rfl, hm'⟩ := dotSegment_eq_ok_iff.mp hstep
        exact .dot hw (ih hw' hm' hrest)

/-- A path is read as its first segment and the others. -/
theorem many_of_path {l : List String} (h : Path l s r) (hr : ∀ t, r ≠ '.' :: t) :
    ∃ w ws m, l = w :: ws ∧ IsSegment w ∧ s = w.toList ++ m ∧ WordEnd m ∧
      many dotSegment m = .ok (ws, r) := by
  induction h with
  | @last w r hw hend =>
      refine ⟨w, [], r, rfl, hw, rfl, hend, many_of_mismatch (m := r) (bind_apply_error ?_)⟩
      refine literal_mismatch ?_
      rintro ⟨t, rfl⟩
      exact hr t rfl
  | @dot w ws s r hw _ ih =>
      obtain ⟨w', ws', m, rfl, hw', rfl, hm, hmany⟩ := ih hr
      refine ⟨w, w' :: ws', _, rfl, hw, rfl, wordEnd_dot _, ?_⟩
      refine many_of_ok (dotSegment_eq_ok_iff.mpr ⟨hw', rfl, hm⟩) ?_ hmany
      simp only [List.length_cons, List.length_append]
      omega

/-- The segments of a path name one variable. -/
theorem Names.ofSegments_eq {l : List String} {v : Variable} (h : Names l v) {w : String}
    {ws : List String} (hl : l = w :: ws) : ofSegments w ws = v := by
  cases h with
  | plain =>
      cases hl
      rfl
  | @field init field hne =>
      cases init with
      | nil => exact absurd rfl hne
      | cons w' init =>
          cases hl
          simp [ofSegments]

theorem names_cons_iff {w : String} {ws : List String} {v : Variable} :
    Names (w :: ws) v ↔ ofSegments w ws = v := by
  constructor
  · intro h
    exact h.ofSegments_eq rfl
  · rintro rfl
    rcases List.eq_nil_or_concat ws with rfl | ⟨init, field, rfl⟩
    · exact .plain
    · have h : Names (w :: init ++ [field]) _ := .field (List.cons_ne_nil w init)
      have hof : ofSegments w (init ++ [field]) = _ := h.ofSegments_eq rfl
      rw [List.concat_eq_append, hof]
      exact h

theorem reference_of_ok {v : Variable} (h : variableName s = .ok (v, r)) : Reference v s r := by
  obtain ⟨w, m, hw, h⟩ := bind_eq_ok_iff.mp h
  obtain ⟨ws, m', hws, hv⟩ := bind_eq_ok_iff.mp h
  obtain ⟨hnames, rfl⟩ := pure_eq_ok_iff.mp hv
  obtain ⟨hseg, rfl, hm⟩ := segment_eq_ok_iff.mp hw
  exact ⟨w :: ws, path_of_many hseg hm hws, names_cons_iff.mpr hnames⟩

theorem variableName_of_reference {v : Variable} (h : Reference v s r)
    (hr : ∀ t, r ≠ '.' :: t) : variableName s = .ok (v, r) := by
  obtain ⟨l, hpath, hnames⟩ := h
  obtain ⟨w, ws, m, rfl, hw, rfl, hm, hmany⟩ := many_of_path hpath hr
  refine bind_eq_ok_iff.mpr ⟨w, m, segment_eq_ok_iff.mpr ⟨hw, rfl, hm⟩, ?_⟩
  exact bind_eq_ok_iff.mpr
    ⟨ws, r, hmany, pure_eq_ok_iff.mpr ⟨names_cons_iff.mp hnames, rfl⟩⟩

/-- A variable begins with a segment that ends before no letter, digit or underscore. -/
theorem Reference.exists_segment {v : Variable} (h : Reference v s r) :
    ∃ w m, IsSegment w ∧ s = w.toList ++ m ∧ WordEnd m := by
  obtain ⟨_, hpath, -⟩ := h
  cases hpath with
  | last hw hr => exact ⟨_, _, hw, rfl, hr⟩
  | dot hw _ => exact ⟨_, _, hw, rfl, wordEnd_dot _⟩

/-- What is read of a path comes before the rest. -/
theorem Path.eq_append {l : List String} (h : Path l s r) : ∃ t, s = t ++ r := by
  induction h with
  | last _ _ => exact ⟨_, rfl⟩
  | @dot w _ _ _ _ _ ih =>
      obtain ⟨t, rfl⟩ := ih
      exact ⟨w.toList ++ '.' :: t, by simp⟩

theorem Path.head {l : List String} (h : Path l s r) :
    ∃ c t, s = c :: (t ++ r) ∧ isSegmentHead c = true := by
  cases h with
  | last hw _ =>
      obtain ⟨c, t, hw, hc⟩ := hw.head
      exact ⟨c, t, by rw [hw, List.cons_append], hc⟩
  | dot hw h =>
      obtain ⟨c, t, hw, hc⟩ := hw.head
      obtain ⟨u, rfl⟩ := h.eq_append
      exact ⟨c, t ++ '.' :: u, by rw [hw]; simp, hc⟩

theorem Reference.head {v : Variable} (h : Reference v s r) :
    ∃ c t, s = c :: (t ++ r) ∧ isSegmentHead c = true := by
  obtain ⟨_, hpath, -⟩ := h
  exact hpath.head

theorem isWhitespace_eq_false_of_isSegmentHead {c : Char} (h : isSegmentHead c = true) :
    c.isWhitespace = false := by
  rw [isSegmentHead_iff] at h
  rw [← Bool.not_eq_true, isWhitespace_iff]
  omega

theorem solid_reference (v : Variable) : Solid (Reference v) := by
  intro s r h
  obtain ⟨c, t, rfl, hc⟩ := h.head
  exact ⟨c, t, rfl, isWhitespace_eq_false_of_isSegmentHead hc⟩

/-- No reserved word stands where a variable does. -/
theorem Reference.not_reserved {v : Variable} {word : String} (hword : word ∈ reserved)
    (h : Reference v s r) : ¬ (Token.word word).Reads s m := by
  rintro ⟨hs, hm⟩
  obtain ⟨w, m', hw, hs', hm'⟩ := h.exists_segment
  have hchars : ∀ c ∈ word.toList, isSegmentTail c = true := by
    have hall : (reserved.all fun u => u.toList.all isSegmentTail) = true := by decide
    exact List.all_eq_true.mp (List.all_eq_true.mp hall word hword)
  have hchars' : ∀ c ∈ w.toList, isSegmentTail c = true := by
    obtain ⟨⟨c, t, hw, hc, ht⟩, -⟩ := hw
    rw [hw]
    exact List.forall_mem_cons.mpr ⟨isSegmentTail_iff.mpr (.inl hc), ht⟩
  have heq : word.toList = w.toList :=
    (takeWhile_dropWhile_eq_iff.mpr ⟨hs, hchars, hm⟩).1.symm.trans
      (takeWhile_dropWhile_eq_iff.mpr ⟨hs', hchars', hm'⟩).1
  exact hw.2 (String.toList_inj.mp heq ▸ hword)

theorem Reference.reader_mismatch {v : Variable} {word : String} (hword : word ∈ reserved)
    (h : Reference v (afterBlanks s) m) :
    ∃ m, (Token.word word).reader s = .error (.mismatch m) := by
  have hsolid : ∀ word ∈ reserved, (Token.word word).isSolid = true := by decide
  apply Token.reader_mismatch_of_not_reads
  intro r hr
  obtain ⟨m', hm', -⟩ := hr.exists_of_solid (Token.solid_reads (hsolid word hword))
  exact h.not_reserved hword hm'

end SignalLogic.Grammar
