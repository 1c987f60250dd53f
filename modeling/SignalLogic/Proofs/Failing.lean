import SignalLogic.Proofs.Reading

/-!
# Where readers fail

A reader recovers from a mismatch by going back, so the mismatch that is reported in the end
is that of the last reader that was tried where it stood. Other failures go through all readers
unchanged; so each of them lies where some part of the language fails for good. Recursion is
what its equation says: that it goes on with shorter texts only is never felt by readers that
take something off the text first.
-/

namespace SignalLogic.Reader

variable {α β : Type} {s m r : List Char} {e : Failure} {n : Nat}

theorem bind_eq_error_iff {p : Reader α} {f : α → Reader β} :
    (p >>= f) s = .error e ↔
      p s = .error e ∨ ∃ a m, p s = .ok (a, m) ∧ f a m = .error e := by
  cases h : p s with
  | ok result =>
      obtain ⟨a, m⟩ := result
      simp [bind_apply_ok h]
  | error failure => simp [bind_apply_error h]

theorem map_eq_error_iff {p : Reader α} {f : α → β} : (f <$> p) s = .error e ↔ p s = .error e := by
  constructor
  · intro h
    rcases bind_eq_error_iff.mp h with h | ⟨a, m, -, h⟩
    · exact h
    · cases h
  · exact map_apply_error

/-- What follows a token cannot fail. -/
theorem token_eq_error_iff {p : Reader α} :
    token p s = .error e ↔ p (afterBlanks s) = .error e := by
  constructor
  · intro h
    unfold token at h
    rw [bind_apply_ok (rfl : blanks s = .ok ((), afterBlanks s))] at h
    rcases bind_eq_error_iff.mp h with h | ⟨a, m, -, h⟩
    · exact h
    · cases h
  · exact token_apply_error

/-- A choice of two fails as the second one does after a mismatch, or for good as the first. -/
theorem orElse_eq_error {p q : Reader α} (h : p.orElse q s = .error e) :
    (∃ m, p s = .error (.mismatch m)) ∧ q s = .error e ∨
      p s = .error e ∧ ∀ m, e ≠ .mismatch m := by
  unfold orElse at h
  split at h
  case h_1 m hm => exact .inl ⟨⟨m, hm⟩, h⟩
  case h_2 hne =>
    refine .inr ⟨h, ?_⟩
    rintro m rfl
    exact hne m h

/-- The mismatch of a choice is that of its last reader. -/
theorem choice_eq_mismatch (ps : List (Reader α)) {p : Reader α}
    (h : choice (ps ++ [p]) s = .error (.mismatch m)) : p s = .error (.mismatch m) := by
  induction ps with
  | nil => exact h
  | cons q ps ih =>
      rw [List.cons_append, choice_cons (by simp)] at h
      rcases orElse_eq_error h with ⟨-, h⟩ | ⟨-, hne⟩
      · exact ih h
      · exact absurd rfl (hne m)

/-- What is optional fails for good only. -/
theorem optional_eq_error {p : Reader α} (h : optional p s = .error e) :
    p s = .error e ∧ ∀ m, e ≠ .mismatch m := by
  rcases orElse_eq_error h with ⟨-, h⟩ | ⟨h, hne⟩
  · cases h
  · exact ⟨map_eq_error_iff.mp h, hne⟩

/-- A repetition fails for good only. -/
theorem many_eq_error {p : Reader α} (h : many p s = .error e) : ∀ m, e ≠ .mismatch m := by
  induction hn : s.length using Nat.strong_induction_on generalizing s with
  | _ n ih =>
      rw [many] at h
      split at h
      case h_1 a rest hp =>
        split at h
        case isTrue hlt =>
          split at h
          case h_1 => cases h
          case h_2 failure hmany =>
            cases h
            exact ih _ (hn ▸ hlt) hmany rfl
        case isFalse => cases h
      case h_2 => cases h
      case h_3 failure hne _ =>
        cases h
        exact hne

theorem literal_eq_error {word : String} (h : literal word s = .error e) : e = .mismatch s := by
  unfold literal at h
  split at h <;> cases h
  rfl

theorem run_eq_error {ok : Char → Bool} (h : run ok s = .error e) : e = .mismatch s := by
  unfold run at h
  split at h <;> cases h
  rfl

/-- What is read and cannot be converted is a mismatch where it began. -/
theorem filterMap_eq_error {p : Reader α} {f : α → Option β}
    (hp : ∀ e, p s = .error e → e = .mismatch s) (h : filterMap p f s = .error e) :
    e = .mismatch s := by
  unfold filterMap at h
  split at h
  case h_1 => split at h <;> cases h; rfl
  case h_2 failure hfailure =>
    cases h
    exact hp e hfailure

/-- The readers do the same with every text of less than `n` characters. -/
def Agree (n : Nat) (p q : Reader α) : Prop :=
  ∀ s, s.length < n → p s = q s

/-- What is read leaves no more than there was. -/
def Shrinking (p : Reader α) : Prop :=
  ∀ s a r, p s = .ok (a, r) → r.length ≤ s.length

/-- What is read takes something off the text. -/
def Consuming (p : Reader α) : Prop :=
  ∀ s a r, p s = .ok (a, r) → r.length < s.length

namespace Agree

variable {p q : Reader α} {f g : α → Reader β}

theorem refl (n : Nat) (p : Reader α) : Agree n p p :=
  fun _ _ => rfl

/-- The limit hides all disagreement beyond it. -/
theorem within_eq (h : Agree n p q) : within n p = within n q := by
  funext s
  unfold within
  split
  case isTrue hlt => exact h s hlt
  case isFalse => rfl

theorem bind (h : Agree n p q) (hp : Shrinking p) (hf : ∀ a, Agree n (f a) (g a)) :
    Agree n (p >>= f) (q >>= g) := by
  intro s hs
  cases hps : p s with
  | ok result =>
      obtain ⟨a, r⟩ := result
      rw [bind_apply_ok hps, bind_apply_ok ((h s hs).symm.trans hps)]
      exact hf a r ((hp s a r hps).trans_lt hs)
  | error failure =>
      rw [bind_apply_error hps, bind_apply_error ((h s hs).symm.trans hps)]

theorem bind_left (h : Agree n p q) (f : α → Reader β) : Agree n (p >>= f) (q >>= f) := by
  intro s hs
  simp only [Bind.bind, h s hs]

/-- After something has been read, agreement on shorter texts is enough. -/
theorem bind_right (hp : Consuming p) (hf : ∀ a, Agree n (f a) (g a)) :
    Agree (n + 1) (p >>= f) (p >>= g) := by
  intro s hs
  cases hps : p s with
  | ok result =>
      obtain ⟨a, r⟩ := result
      rw [bind_apply_ok hps, bind_apply_ok hps]
      exact hf a r ((hp s a r hps).trans_le (Nat.le_of_lt_succ hs))
  | error failure => rw [bind_apply_error hps, bind_apply_error hps]

theorem map (h : Agree n p q) (f : α → β) : Agree n (f <$> p) (f <$> q) :=
  h.bind_left _

theorem orElse {p' q' : Reader α} (h : Agree n p q) (h' : Agree n p' q') :
    Agree n (p.orElse p') (q.orElse q') := by
  intro s hs
  simp only [Reader.orElse, h s hs, h' s hs]

theorem optional (h : Agree n p q) : Agree n (optional p) (optional q) :=
  (h.map some).orElse (refl n _)

theorem many (h : Agree n p q) : Agree n (many p) (many q) := by
  intro s hs
  induction hk : s.length using Nat.strong_induction_on generalizing s with
  | _ k ih =>
      rw [Reader.many, Reader.many, h s hs]
      split
      case h_1 a rest hq =>
        split
        case isTrue hlt => rw [ih _ (hk ▸ hlt) rest (hlt.trans hs) rfl]
        case isFalse => rfl
      case h_2 => rfl
      case h_3 => rfl

/-- Recursions agree where their unfoldings do. -/
theorem fix {step step' : Reader α → Reader α} (h : ∀ p, Agree n (step p) (step' p)) :
    Agree n (fix step) (fix step') := by
  intro s hs
  induction hk : s.length using Nat.strong_induction_on generalizing s with
  | _ k ih =>
      have hshorter : Agree s.length (Reader.fix step) (Reader.fix step') :=
        fun t hlt => ih _ (hk ▸ hlt) t (hlt.trans hs) rfl
      rw [fix_eq, fix_eq, hshorter.within_eq]
      exact h _ s hs

end Agree

/-- A mismatch, or a failure that a suffix of the text has for good. -/
inductive Located (F : List Char → Failure → Prop) (s : List Char) : Failure → Prop
  | mismatch {rest} : Located F s (.mismatch rest)
  | inside {t failure} (ht : t <:+ s) (h : F t failure) : Located F s failure

variable {F : List Char → Failure → Prop}

theorem Located.of_suffix (h : Located F m e) (hm : m <:+ s) : Located F s e := by
  cases h with
  | mismatch => exact .mismatch
  | inside ht h => exact .inside (ht.trans hm) h

/-- The rest that is left is a suffix of the text, a failure is located. -/
def Placed (F : List Char → Failure → Prop) (s : List Char) :
    Except Failure (α × List Char) → Prop
  | .ok (_, r) => r <:+ s
  | .error e => Located F s e

theorem Placed.of_suffix {result : Except Failure (α × List Char)} (h : Placed F m result)
    (hm : m <:+ s) : Placed F s result := by
  cases result with
  | ok pair => exact List.IsSuffix.trans h hm
  | error e => exact Located.of_suffix h hm

/-- The reader leaves suffixes, and it fails for good only where some suffix does. -/
def Orderly (F : List Char → Failure → Prop) (p : Reader α) : Prop :=
  ∀ s, Placed F s (p s)

namespace Orderly

variable {p q : Reader α} {f : α → Reader β}

theorem suffix {a : α} (h : Orderly F p) (hp : p s = .ok (a, r)) : r <:+ s := by
  have hs := h s
  rw [hp] at hs
  exact hs

theorem located (h : Orderly F p) (hp : p s = .error e) : Located F s e := by
  have hs := h s
  rw [hp] at hs
  exact hs

theorem shrinking (h : Orderly F p) : Shrinking p :=
  fun _ _ _ hp => (h.suffix hp).length_le

theorem pure (a : α) : Orderly F (Pure.pure a : Reader α) :=
  fun s => List.suffix_refl s

theorem bind (hp : Orderly F p) (hf : ∀ a, Orderly F (f a)) : Orderly F (p >>= f) := by
  intro s
  cases hps : p s with
  | ok result =>
      obtain ⟨a, r⟩ := result
      rw [bind_apply_ok hps]
      exact (hf a r).of_suffix (hp.suffix hps)
  | error failure =>
      rw [bind_apply_error hps]
      exact hp.located hps

theorem map (hp : Orderly F p) (f : α → β) : Orderly F (f <$> p) :=
  hp.bind fun a => pure (f a)

theorem orElse (hp : Orderly F p) (hq : Orderly F q) : Orderly F (p.orElse q) := by
  intro s
  unfold Reader.orElse
  split
  · exact hq s
  · exact hp s

theorem choice {ps : List (Reader α)} (h : ∀ p ∈ ps, Orderly F p) : Orderly F (choice ps) := by
  induction ps with
  | nil => exact fun s => Located.mismatch
  | cons p ps ih =>
      have hp := h p List.mem_cons_self
      cases ps with
      | nil => exact hp
      | cons q ps => exact hp.orElse (ih fun r hr => h r (List.mem_cons_of_mem _ hr))

theorem optional (hp : Orderly F p) : Orderly F (optional p) :=
  (hp.map some).orElse (pure none)

theorem many (hp : Orderly F p) : Orderly F (many p) := by
  intro s
  induction hn : s.length using Nat.strong_induction_on generalizing s with
  | _ n ih =>
      rw [Reader.many]
      split
      case h_1 a m hm =>
        split
        case isTrue hlt =>
          have hrest := (ih _ (hn ▸ hlt) m rfl).of_suffix (hp.suffix hm)
          split
          case h_1 as r hr =>
            rw [hr] at hrest
            exact hrest
          case h_2 failure hr =>
            rw [hr] at hrest
            exact hrest
        case isFalse => exact List.suffix_refl s
      case h_2 => exact List.suffix_refl s
      case h_3 failure _ hfailure => exact hp.located hfailure

theorem fix {step : Reader α → Reader α} (h : ∀ p, Orderly F p → Orderly F (step p)) :
    Orderly F (fix step) :=
  fix_induction h fun _ => Located.mismatch

theorem within (h : Orderly F p) (n : Nat) : Orderly F (within n p) :=
  within_induction (fun s _ => h s) fun _ => Located.mismatch

theorem filterMap (hp : Orderly F p) (f : α → Option β) : Orderly F (filterMap p f) := by
  intro s
  unfold Reader.filterMap
  split
  case h_1 a r hr =>
    split
    · exact hp.suffix hr
    · exact Located.mismatch
  case h_2 failure hfailure => exact hp.located hfailure

theorem literal (word : String) : Orderly F (literal word) := by
  intro s
  unfold Reader.literal
  split
  · exact List.drop_suffix _ s
  · exact Located.mismatch

theorem run (ok : Char → Bool) : Orderly F (run ok) := by
  intro s
  unfold Reader.run
  split
  · exact Located.mismatch
  · exact List.dropWhile_suffix ok

theorem unlessNext (ok : Char → Bool) : Orderly F (unlessNext ok) := by
  intro s
  unfold Reader.unlessNext
  split
  · exact List.suffix_refl []
  · split
    · exact Located.mismatch
    · exact List.suffix_refl _

theorem token (hp : Orderly F p) : Orderly F (token p) := by
  have hblanks : Orderly F blanks := fun s => List.dropWhile_suffix Char.isWhitespace
  exact hblanks.bind fun _ => hp.bind fun a => hblanks.bind fun _ => pure a

end Orderly

/-- A recursion that takes something off the text before it goes on never comes to its limit: it
satisfies its equation. -/
theorem fix_unfold {step : Reader α → Reader α} (horderly : ∀ p, Orderly F p → Orderly F (step p))
    (h : ∀ n p q, Orderly F p → Agree n p q → Agree (n + 1) (step p) (step q)) :
    fix step = step (fix step) := by
  funext s
  rw [fix_eq]
  exact h s.length _ _ ((Orderly.fix horderly).within _) (fun t ht => within_of_lt ht) s
    (Nat.lt_succ_self _)

end SignalLogic.Reader
