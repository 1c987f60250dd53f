import SignalLogic.Parse
import SignalLogic.Proofs.Grammar.Completeness
import SignalLogic.Proofs.Grammar.Soundness

/-!
# Parsing follows the grammar

A text is parsed as a formula exactly when the grammar derives the formula from the whole
text. Hence the ordered choices of the readers, their repetitions and the final failures
inside intervals cost no derivation, and the grammar is unambiguous.
-/

namespace SignalLogic.Grammar

open Reader

variable {s m r : List Char} {f g : Formula}

theorem Leading.of_blanks {op : UnaryOp} (hb : Blanks s m) (h : Leading op m r) :
    Leading op s r := by
  cases h with
  | plain hmem ht => exact .plain hmem (ht.of_blanks hb)
  | windowed hmem ht hi => exact .windowed hmem (ht.of_blanks hb) hi

/-- Blanks before a phrase belong to its first lexeme. -/
theorem Derives.of_blanks {phrase : Phrase} (h : Derives phrase f m r) :
    ∀ ℓ, phrase = .whole ℓ → ∀ s, Blanks s m → Derives phrase f s r := by
  induction h with
  | number h =>
      intro _ _ s hb
      exact .number (h.of_blanks hb)
  | reference h =>
      intro _ _ s hb
      exact .reference (h.of_blanks hb)
  | parentheses ho hf hc =>
      intro _ _ s hb
      exact .parentheses (ho.of_blanks hb) hf hc
  | abs ha ho hf hc =>
      intro _ _ s hb
      exact .abs (ha.of_blanks hb) ho hf hc
  | chain hℓ _ hg ihf _ =>
      intro _ _ s hb
      exact .chain hℓ (ihf _ rfl s hb) hg
  | comparison _ ho hg ihf _ =>
      intro _ _ s hb
      exact .comparison (ihf _ rfl s hb) ho hg
  | implication _ ho hg ihf _ =>
      intro _ _ s hb
      exact .implication (ihf _ rfl s hb) ho hg
  | leading ho hf _ =>
      intro _ _ s hb
      exact .leading (ho.of_blanks hb) hf
  | tighter hℓ _ ih =>
      intro _ _ s hb
      exact .tighter hℓ (ih _ rfl s hb)
  | finish | extend => nofun

/-- Of a list of characters the parser accepts what the grammar derives from all of it. -/
theorem parseChars_eq_ok_iff :
    parseChars s = .ok f ↔ Derives (.whole .formula) f s [] := by
  have hparse : parseChars s = .ok f ↔ token formula s = .ok (f, []) := by
    unfold parseChars
    split
    case h_1 g h => simp [h]
    case h_2 g rest hne h =>
      simp only [h, reduceCtorEq, Except.ok.injEq, Prod.mk.injEq, false_iff]
      rintro ⟨-, rfl⟩
      exact hne rfl
    case h_3 failure h => simp [h]
  rw [hparse, token_eq_ok_iff]
  constructor
  · rintro ⟨m, hm, hr⟩
    obtain ⟨hf, htrim⟩ := sound_formula _ _ _ hm
    obtain rfl : [] = m := hr.trans htrim
    exact hf.of_blanks _ rfl s (blanks_afterBlanks s)
  · intro h
    refine ⟨[], ?_, rfl⟩
    rw [formula_apply]
    exact h.read (fun t ht => within_of_lt ht) (.nothing rfl)

/-- The grammar derives no more than one formula from a whole text. -/
theorem Derives.unique (hf : Derives (.whole .formula) f s [])
    (hg : Derives (.whole .formula) g s []) : f = g := by
  have h := (parseChars_eq_ok_iff.mpr hf).symm.trans (parseChars_eq_ok_iff.mpr hg)
  exact Except.ok.inj h

/-- The parser accepts exactly the texts from which the grammar derives a formula, and
the formula that it returns is the derived one. -/
theorem parse_eq_ok_iff_derives (text : String) (f : Formula) :
    parse text = .ok f ↔ Derives (.whole .formula) f text.toList [] :=
  parseChars_eq_ok_iff

end SignalLogic.Grammar
