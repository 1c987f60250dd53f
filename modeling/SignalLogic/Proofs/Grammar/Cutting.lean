import SignalLogic.Proofs.Grammar.Parsing
import Mathlib.Logic.Relation

/-!
# Cutting off what follows

A lexeme or a phrase is related to a text and to the rest that follows it there. The rest may
be cut short anywhere: what stands before it is the same lexeme or phrase before any beginning
of the rest. Only words and segments look at what follows, and a word that ends before some
character ends before nothing too.
-/

namespace SignalLogic.Grammar

variable {s m r : List Char} {ℓ : Level} {f : Formula}

/-- The text is a part followed by the rest, and the relation holds of the part before every
beginning of the rest. -/
def Cut (R : List Char → List Char → Prop) (s r : List Char) : Prop :=
  ∃ part, s = part ++ r ∧ ∀ m u, r = m ++ u → R (part ++ m) m

/-- Every text of a relation can be cut. -/
def Cuttable (R : List Char → List Char → Prop) : Prop :=
  ∀ s r, R s r → Cut R s r

namespace Cut

variable {R S : List Char → List Char → Prop}

/-- What looks at nothing that follows can be cut. -/
theorem of_forall (part : List Char) (h : ∀ m, R (part ++ m) m) : Cut R (part ++ r) r :=
  ⟨part, rfl, fun m _ _ => h m⟩

theorem mono (h : Cut R s r) (hRS : ∀ {s r}, R s r → S s r) : Cut S s r := by
  obtain ⟨part, rfl, hcut⟩ := h
  exact ⟨part, rfl, fun m u hr => hRS (hcut m u hr)⟩

/-- Where the second of two parts is cut, the first one keeps all of it. -/
theorem comp (h : Cut R s m) (h' : Cut S m r) : Cut (Relation.Comp R S) s r := by
  obtain ⟨first, rfl, hfirst⟩ := h
  obtain ⟨second, rfl, hsecond⟩ := h'
  refine ⟨first ++ second, (List.append_assoc _ _ _).symm, ?_⟩
  rintro m u rfl
  refine ⟨second ++ m, ?_, hsecond m u rfl⟩
  rw [List.append_assoc]
  exact hfirst (second ++ m) u (List.append_assoc _ _ _).symm

/-- What is cut is a suffix. -/
theorem suffix (h : Cut R s r) : r <:+ s := by
  obtain ⟨part, rfl, -⟩ := h
  exact List.suffix_append part r

/-- All of the rest may be cut off. -/
theorem alone (h : Cut R s r) : ∃ part, s = part ++ r ∧ R part [] := by
  obtain ⟨part, rfl, hcut⟩ := h
  have halone := hcut [] r rfl
  rw [List.append_nil] at halone
  exact ⟨part, rfl, halone⟩

end Cut

theorem cuttable_blanks : Cuttable Blanks := by
  intro s r h
  induction h with
  | refl => exact .of_forall [] fun m => .refl
  | skip hc _ ih =>
      obtain ⟨part, rfl, hcut⟩ := ih
      exact ⟨_ :: part, rfl, fun m u hr => .skip hc (hcut m u hr)⟩

theorem Spaced.cut {R : List Char → List Char → Prop} (hR : Cuttable R) (h : Spaced R s r) :
    Cut (Spaced R) s r := by
  obtain ⟨s', r', hs, hsr, hr⟩ := h
  refine (((cuttable_blanks _ _ hs).comp (hR _ _ hsr)).comp (cuttable_blanks _ _ hr)).mono ?_
  rintro s r ⟨r', ⟨s', hs, hsr⟩, hr⟩
  exact ⟨s', r', hs, hsr, hr⟩

/-- A word that ends before a text ends before its beginnings. -/
theorem WordEnd.of_append {u : List Char} (h : WordEnd (m ++ u)) : WordEnd m := by
  rintro c t rfl
  exact h c (t ++ u) rfl

theorem cuttable_reads (t : Token) : Cuttable t.Reads := by
  intro s r h
  cases t with
  | symbol text =>
      obtain rfl : s = text.toList ++ r := h
      exact .of_forall _ fun m => rfl
  | word text =>
      obtain ⟨rfl, hend⟩ := h
      refine ⟨text.toList, rfl, ?_⟩
      rintro m u rfl
      exact ⟨rfl, hend.of_append⟩

theorem Spaced.cut_token {t : Token} (h : Spaced t.Reads s r) : Cut (Spaced t.Reads) s r :=
  h.cut (cuttable_reads t)

theorem cuttable_magnitude (d : Decimal) : Cuttable (Magnitude d) := by
  intro s r h
  cases h with
  | whole h => exact .of_forall _ fun m => .whole h
  | @point ds fs _ h hf =>
      refine ⟨ds ++ '.' :: fs, by simp, fun m u hr => ?_⟩
      rw [List.append_assoc]
      exact .point h hf

theorem cuttable_number (x : Value) : Cuttable (Number x) := by
  intro s r h
  cases h with
  | positive h => exact (cuttable_magnitude _ _ _ h).mono fun h => .positive h
  | negative h =>
      obtain ⟨part, rfl, hcut⟩ := cuttable_magnitude _ _ _ h
      exact ⟨'-' :: part, rfl, fun m u hr => .negative (hcut m u hr)⟩

theorem cuttable_bound (e : Endpoint) : Cuttable (Bound e) := by
  intro s r h
  cases h with
  | finite hds hn => exact .of_forall _ fun m => .finite hds hn
  | infinite => exact .of_forall _ fun m => .infinite

theorem Spaced.cut_bound {e : Endpoint} (h : Spaced (Bound e) s r) : Cut (Spaced (Bound e)) s r :=
  h.cut (cuttable_bound e)

theorem Window.cut {i : Interval} (h : Window i s r) : Cut (Window i) s r := by
  obtain ⟨s₁, s₂, s₃, s₄, hopen, hlower, hcomma, hupper, hclose⟩ := h
  refine ((((hopen.cut_token.comp hlower.cut_bound).comp hcomma.cut_token).comp
    hupper.cut_bound).comp hclose.cut_token).mono ?_
  rintro s r ⟨s₄, ⟨s₃, ⟨s₂, ⟨s₁, hopen, hlower⟩, hcomma⟩, hupper⟩, hclose⟩
  exact ⟨s₁, s₂, s₃, s₄, hopen, hlower, hcomma, hupper, hclose⟩

theorem cuttable_path (l : List String) : Cuttable (Path l) := by
  intro s r h
  induction h with
  | @last w r hw hr =>
      refine ⟨w.toList, rfl, ?_⟩
      rintro m u rfl
      exact .last hw hr.of_append
  | @dot w ws s r hw _ ih =>
      obtain ⟨part, rfl, hcut⟩ := ih
      refine ⟨w.toList ++ '.' :: part, by simp, fun m u hr => ?_⟩
      rw [List.append_assoc]
      exact .dot hw (hcut m u hr)

theorem cuttable_reference (v : Variable) : Cuttable (Reference v) := by
  rintro s r ⟨ws, hpath, hnames⟩
  exact (cuttable_path ws s r hpath).mono fun hpath => ⟨ws, hpath, hnames⟩

theorem Between.cut {op : BinaryOp} (h : Between ℓ op s r) : Cut (Between ℓ op) s r := by
  cases h with
  | plain hmem ht => exact ht.cut_token.mono fun ht => .plain hmem ht
  | windowed hmem ht hi =>
      refine (ht.cut_token.comp hi.cut).mono ?_
      rintro s r ⟨m, ht, hi⟩
      exact .windowed hmem ht hi

theorem Leading.cut {op : UnaryOp} (h : Leading op s r) : Cut (Leading op) s r := by
  cases h with
  | plain hmem ht => exact ht.cut_token.mono fun ht => .plain hmem ht
  | windowed hmem ht hi =>
      refine (ht.cut_token.comp hi.cut).mono ?_
      rintro s r ⟨m, ht, hi⟩
      exact .windowed hmem ht hi

/-- What is derived is derived wherever the rest of the text is cut. -/
theorem Derives.cut {phrase : Phrase} (h : Derives phrase f s r) : Cut (Derives phrase f) s r := by
  induction h with
  | number h => exact (h.cut (cuttable_number _)).mono .number
  | reference h => exact (h.cut (cuttable_reference _)).mono .reference
  | parentheses ho _ hc ih =>
      refine ((ho.cut_token.comp ih).comp hc.cut_token).mono ?_
      rintro s r ⟨m', ⟨m, ho, hf⟩, hc⟩
      exact .parentheses ho hf hc
  | abs ha ho _ hc ih =>
      refine (((ha.cut_token.comp ho.cut_token).comp ih).comp hc.cut_token).mono ?_
      rintro s r ⟨m', ⟨m, ⟨s', ha, ho⟩, hf⟩, hc⟩
      exact .abs ha ho hf hc
  | chain hℓ _ _ ihf ihg =>
      refine (ihf.comp ihg).mono ?_
      rintro s r ⟨m, hf, hg⟩
      exact .chain hℓ hf hg
  | finish => exact .of_forall [] fun m => .finish
  | extend ho _ _ ihg ihk =>
      refine ((ho.cut.comp ihg).comp ihk).mono ?_
      rintro s r ⟨m', ⟨m, ho, hg⟩, hk⟩
      exact .extend ho hg hk
  | comparison _ ho _ ihf ihg =>
      refine ((ihf.comp ho.cut).comp ihg).mono ?_
      rintro s r ⟨m', ⟨m, hf, ho⟩, hg⟩
      exact .comparison hf ho hg
  | implication _ ho _ ihf ihg =>
      refine ((ihf.comp ho.cut).comp ihg).mono ?_
      rintro s r ⟨m', ⟨m, hf, ho⟩, hg⟩
      exact .implication hf ho hg
  | leading ho _ ih =>
      refine (ho.cut.comp ih).mono ?_
      rintro s r ⟨m, ho, hf⟩
      exact .leading ho hf
  | tighter hℓ _ ih => exact ih.mono (.tighter hℓ)

/-- Where a formula is read, what is read of the text is itself the text of that formula. -/
theorem exists_parseChars_of_token {r : List Char} (h : Reader.token formula s = .ok (f, r)) :
    ∃ part, s = part ++ r ∧ parseChars part = .ok f ∧ Reader.afterBlanks r = r := by
  obtain ⟨m, hm, rfl⟩ := Reader.token_eq_ok_iff.mp h
  obtain ⟨hf, htrim⟩ := sound_formula _ _ _ hm
  rw [htrim]
  obtain ⟨part, hpart, halone⟩ := (hf.of_blanks _ rfl s (blanks_afterBlanks s)).cut.alone
  exact ⟨part, hpart, parseChars_eq_ok_iff.mpr halone, htrim⟩

end SignalLogic.Grammar
