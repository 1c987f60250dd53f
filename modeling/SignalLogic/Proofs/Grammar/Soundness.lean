import SignalLogic.Proofs.Grammar.Operators

/-!
# What is read is derived

A reader of formulas is sound for a phrase when the grammar derives all that it reads.
Every level keeps the soundness of the reader that it is given, and recursion keeps what
each unfolding of it keeps.
-/

namespace SignalLogic.Grammar

open Reader

variable {s m r : List Char} {ℓ : Level} {phrase : Phrase}

/-- What is read is derived, and no blanks are left after it. -/
def Sound (p : Reader Formula) (phrase : Phrase) : Prop :=
  ∀ s f r, p s = .ok (f, r) → Derives phrase f s r ∧ afterBlanks r = r

/-- Recursion is sound if each unfolding of it is. -/
theorem sound_fix {step : Reader Formula → Reader Formula}
    (h : ∀ p, Sound p phrase → Sound (step p) phrase) : Sound (fix step) phrase :=
  fix_induction (P := fun s result =>
    ∀ f r, result = .ok (f, r) → Derives phrase f s r ∧ afterBlanks r = r) h fun _ _ _ => nofun

theorem sound_chain {operand : Reader Formula} (hℓ : ℓ.isChain = true)
    (h : Sound operand (.whole ℓ.next)) :
    Sound (chain operand (joining <$> ℓ.operatorReader)) (.whole ℓ) := by
  -- By induction on the operands read so far, for every formula that they have formed.
  have hmany : ∀ others f s r, afterBlanks s = s →
      many (do return (← joining <$> ℓ.operatorReader, ← operand)) s = .ok (others, r) →
      Derives (.further ℓ f) (others.foldl (fun left pair => pair.1 left pair.2) f) s r ∧
        afterBlanks r = r := by
    intro others
    induction others with
    | nil =>
        intro f s r hs hmany
        rcases many_eq_ok hmany with ⟨-, rfl⟩ | ⟨_, _, _, hcons, -⟩
        · exact ⟨.finish, hs⟩
        · cases hcons
    | cons pair others ih =>
        intro f s r hs hmany
        rcases many_eq_ok hmany with ⟨hnil, -⟩ | ⟨_, _, m, hcons, hstep, -, hrest⟩
        · cases hnil
        · obtain ⟨rfl, rfl⟩ := List.cons.inj hcons
          obtain ⟨build, s₁, hop, hstep⟩ := bind_eq_ok_iff.mp hstep
          obtain ⟨g, s₂, hg, hpair⟩ := bind_eq_ok_iff.mp hstep
          obtain ⟨rfl, rfl⟩ := pure_eq_ok_iff.mp hpair
          obtain ⟨op, hread, rfl⟩ := map_eq_ok_iff.mp hop
          obtain ⟨hderives, htrim⟩ := h _ _ _ hg
          obtain ⟨hfurther, hr⟩ := ih (joining op f g) _ _ htrim hrest
          exact ⟨.extend (between_of_operatorReader hread).1 hderives hfurther, hr⟩
  intro s f r hs
  obtain ⟨first, m, hfirst, hs⟩ := bind_eq_ok_iff.mp hs
  obtain ⟨others, r', hothers, hf⟩ := bind_eq_ok_iff.mp hs
  obtain ⟨rfl, rfl⟩ := pure_eq_ok_iff.mp hf
  obtain ⟨hderives, htrim⟩ := h _ _ _ hfirst
  obtain ⟨hfurther, hr⟩ := hmany others first m r' htrim hothers
  exact ⟨.chain hℓ hderives hfurther, hr⟩

/-- With one operator at most the operands keep their levels. -/
theorem sound_single {first second : Reader Formula}
    {ℓ₁ ℓ₂ : Level} (h₁ : Sound first (.whole ℓ₁)) (h₂ : Sound second (.whole ℓ₂))
    (hnone : ∀ {f s r}, Derives (.whole ℓ₁) f s r → Derives phrase f s r)
    (hsome : ∀ {op f g s m m' r}, Derives (.whole ℓ₁) f s m → Between ℓ op m m' →
      Derives (.whole ℓ₂) g m' r → Derives phrase (joining op f g) s r) :
    Sound (single first ℓ.operatorReader second) phrase := by
  intro s f r hs
  obtain ⟨left, m, hleft, hs⟩ := bind_eq_ok_iff.mp hs
  obtain ⟨found, m', hfound, hf⟩ := bind_eq_ok_iff.mp hs
  obtain ⟨hfirst, htrim⟩ := h₁ _ _ _ hleft
  rcases optional_eq_ok hfound with ⟨⟨op, right⟩, rfl, hpair⟩ | ⟨rfl, rfl⟩
  · obtain ⟨rfl, rfl⟩ := pure_eq_ok_iff.mp hf
    obtain ⟨op', s₁, hop, hpair⟩ := bind_eq_ok_iff.mp hpair
    obtain ⟨right', s₂, hright, hpair⟩ := bind_eq_ok_iff.mp hpair
    obtain ⟨heq, rfl⟩ := pure_eq_ok_iff.mp hpair
    obtain ⟨rfl, rfl⟩ := Prod.mk.inj heq
    obtain ⟨hderives, hr⟩ := h₂ _ _ _ hright
    exact ⟨hsome hfirst (between_of_operatorReader hop).1 hderives, hr⟩
  · obtain ⟨rfl, rfl⟩ := pure_eq_ok_iff.mp hf
    exact ⟨hnone hfirst, htrim⟩

theorem sound_inParentheses {formula : Reader Formula} (h : Sound formula (.whole .formula))
    {f : Formula} (hs : inParentheses formula s = .ok (f, r)) :
    ∃ m m', Spaced (Token.symbol "(").Reads s m ∧ Derives (.whole .formula) f m m' ∧
      Spaced (Token.symbol ")").Reads m' r ∧ afterBlanks r = r := by
  obtain ⟨⟨⟩, m, hopen, hs⟩ := bind_eq_ok_iff.mp hs
  obtain ⟨f', m', hf, hs⟩ := bind_eq_ok_iff.mp hs
  obtain ⟨⟨⟩, r', hclose, hs⟩ := bind_eq_ok_iff.mp hs
  obtain ⟨rfl, rfl⟩ := pure_eq_ok_iff.mp hs
  obtain ⟨hclose, hr⟩ := Token.spaced_of_reader (t := .symbol ")") hclose
  exact ⟨m, m', (Token.spaced_of_reader (t := .symbol "(") hopen).1, (h _ _ _ hf).1, hclose, hr⟩

theorem sound_atom {formula : Reader Formula} (h : Sound formula (.whole .formula)) :
    Sound (atom formula) (.whole .atom) := by
  intro s f r hs
  obtain ⟨p, hp, hs⟩ := choice_eq_ok hs
  simp only [List.mem_cons, List.not_mem_nil, or_false] at hp
  rcases hp with rfl | rfl | rfl | rfl
  · obtain ⟨x, hx, rfl⟩ := map_eq_ok_iff.mp hs
    obtain ⟨hx, hr⟩ := spaced_of_token number_of_ok hx
    exact ⟨.number hx, hr⟩
  · obtain ⟨⟨⟩, m, habs, hs⟩ := bind_eq_ok_iff.mp hs
    obtain ⟨g, r', hin, hg⟩ := bind_eq_ok_iff.mp hs
    obtain ⟨rfl, rfl⟩ := pure_eq_ok_iff.mp hg
    obtain ⟨m₁, m₂, hopen, hf, hclose, hr⟩ := sound_inParentheses h hin
    exact ⟨.abs (Token.spaced_of_reader (t := .word "abs") habs).1 hopen hf hclose, hr⟩
  · obtain ⟨m₁, m₂, hopen, hf, hclose, hr⟩ := sound_inParentheses h hs
    exact ⟨.parentheses hopen hf hclose, hr⟩
  · obtain ⟨v, hv, rfl⟩ := map_eq_ok_iff.mp hs
    obtain ⟨hv, hr⟩ := spaced_of_token reference_of_ok hv
    exact ⟨.reference hv, hr⟩

theorem sound_relational {formula : Reader Formula} (h : Sound formula (.whole .formula)) :
    Sound (relational formula) (.whole .relational) := by
  have hadditive : Sound (additive formula) (.whole .additive) := by
    rw [additive_eq, multiplicative_eq]
    exact sound_chain rfl (sound_chain rfl (sound_atom h))
  rw [relational_eq]
  exact sound_single hadditive hadditive (fun hf => .tighter (by simp) hf) .comparison

theorem sound_leading {table : List (Token × UnaryOp)} {operand : Reader Formula}
    (htable : table ⊆ leadingOperators) (h : Sound operand (.whole .unary)) :
    Sound (leading table operand) (.whole .unary) := by
  intro s f r hs
  obtain ⟨op, m, hop, hs⟩ := bind_eq_ok_iff.mp hs
  obtain ⟨f', r', hf, hs⟩ := bind_eq_ok_iff.mp hs
  obtain ⟨rfl, rfl⟩ := pure_eq_ok_iff.mp hs
  obtain ⟨hf, hr⟩ := h _ _ _ hf
  exact ⟨.leading (leading_of_leadingReader htable hop).1 hf, hr⟩

theorem sound_unary {formula : Reader Formula} (h : Sound formula (.whole .formula)) :
    Sound (unary formula) (.whole .unary) := by
  rw [unary_eq]
  refine sound_fix fun unary hunary s f r hs => ?_
  obtain ⟨p, hp, hs⟩ := choice_eq_ok hs
  simp only [List.mem_cons, List.not_mem_nil, or_false] at hp
  rcases hp with rfl | rfl | rfl | rfl
  · exact sound_leading (by decide) hunary s f r hs
  · exact sound_leading (by decide) hunary s f r hs
  · exact sound_leading (by decide) hunary s f r hs
  · obtain ⟨hf, hr⟩ := sound_relational h s f r hs
    exact ⟨.tighter (by simp) hf, hr⟩

theorem sound_implication {formula : Reader Formula} (h : Sound formula (.whole .formula)) :
    Sound (implication formula) (.whole .implication) := by
  have hdisjunction : Sound (disjunction formula) (.whole .disjunction) := by
    rw [disjunction_eq, conjunction_eq, binaryTemporal_eq]
    exact sound_chain rfl (sound_chain rfl (sound_chain rfl (sound_unary h)))
  rw [implication_eq]
  exact sound_fix fun implication himplication =>
    sound_single hdisjunction himplication (fun hf => .tighter (by simp) hf) .implication

/-- The language reads what the grammar derives. -/
theorem sound_formula : Sound formula (.whole .formula) := by
  rw [formula_eq]
  exact sound_fix fun _ h => sound_chain rfl (sound_implication h)

end SignalLogic.Grammar
