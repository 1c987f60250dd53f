import SignalLogic.Reader
import Mathlib.Data.List.DropRight

/-!
# What readers accept

Each reader is described by the texts that it accepts, what it leaves of them, and
where it reports a mismatch. The descriptions follow the way in which readers are put
together.
-/

namespace SignalLogic.Reader

variable {α β γ : Type} {text rest : List Char}

/-- A text without the blanks at its beginning. -/
def afterBlanks (text : List Char) : List Char :=
  text.dropWhile Char.isWhitespace

@[simp] theorem afterBlanks_afterBlanks (text : List Char) :
    afterBlanks (afterBlanks text) = afterBlanks text :=
  List.dropWhile_idempotent Char.isWhitespace text

theorem length_afterBlanks_le (text : List Char) : (afterBlanks text).length ≤ text.length :=
  (List.dropWhile_sublist _).length_le

theorem afterBlanks_cons_of_not {c : Char} (h : c.isWhitespace = false) (text : List Char) :
    afterBlanks (c :: text) = c :: text := by
  simp [afterBlanks, h]

theorem head_afterBlanks {c : Char} (h : afterBlanks text = c :: rest) :
    c.isWhitespace = false := by
  have hhead := List.head?_dropWhile_not Char.isWhitespace text
  rw [show text.dropWhile Char.isWhitespace = c :: rest from h] at hhead
  exact hhead

/-- A character that is no blank is not passed. -/
theorem length_lt_afterBlanks {c : Char} (hc : c.isWhitespace = false) (text rest : List Char) :
    rest.length < (afterBlanks (text ++ c :: rest)).length := by
  induction text with
  | nil => simp [afterBlanks_cons_of_not hc]
  | cons d text ih =>
      cases hd : d.isWhitespace with
      | true => simpa [afterBlanks, hd] using ih
      | false =>
          rw [List.cons_append, afterBlanks_cons_of_not hd, List.length_cons, List.length_append,
            List.length_cons]
          omega

/-- Reading in sequence is associative, and reading nothing is neutral. -/
instance : LawfulMonad Reader :=
  LawfulMonad.mk' Reader
    (fun p => by
      funext text
      cases h : p text with
      | ok result => exact bind_apply_ok (h : p text = .ok (result.1, result.2))
      | error failure => exact bind_apply_error h)
    (fun a f => rfl)
    (fun p f g => by
      funext text
      cases h : p text with
      | ok result =>
          rw [bind_apply_ok (h : p text = .ok (result.1, result.2))]
          simp only [bind, h]
      | error failure => simp only [bind, h])

theorem bind_eq_ok_iff {p : Reader α} {f : α → Reader β} {b : β} :
    (p >>= f) text = .ok (b, rest) ↔
      ∃ a mid, p text = .ok (a, mid) ∧ f a mid = .ok (b, rest) := by
  cases h : p text with
  | ok result =>
      rw [bind_apply_ok (h : p text = .ok (result.1, result.2))]
      constructor
      · intro hf
        exact ⟨result.1, result.2, rfl, hf⟩
      · rintro ⟨a, mid, hp, hf⟩
        cases hp
        exact hf
  | error failure => simp [bind_apply_error h]

theorem pure_eq_ok_iff {a b : α} :
    (pure a : Reader α) text = .ok (b, rest) ↔ a = b ∧ text = rest := by
  simp

theorem map_eq_ok_iff {p : Reader α} {f : α → β} {b : β} :
    (f <$> p) text = .ok (b, rest) ↔ ∃ a, p text = .ok (a, rest) ∧ f a = b := by
  constructor
  · intro h
    obtain ⟨a, mid, hp, hf⟩ := bind_eq_ok_iff.mp h
    obtain ⟨rfl, rfl⟩ := pure_eq_ok_iff.mp hf
    exact ⟨a, hp, rfl⟩
  · rintro ⟨a, hp, rfl⟩
    exact bind_eq_ok_iff.mpr ⟨a, rest, hp, rfl⟩

theorem map_apply_error {p : Reader α} {f : α → β} {failure : Failure}
    (h : p text = .error failure) : (f <$> p) text = .error failure :=
  bind_apply_error h

theorem orElse_of_ok {p q : Reader α} {a : α} (h : p text = .ok (a, rest)) :
    p.orElse q text = .ok (a, rest) := by
  simp [orElse, h]

theorem orElse_of_mismatch {p q : Reader α} (h : p text = .error (.mismatch rest)) :
    p.orElse q text = q text := by
  simp [orElse, h]

theorem orElse_eq_ok {p q : Reader α} {a : α} (h : p.orElse q text = .ok (a, rest)) :
    p text = .ok (a, rest) ∨ q text = .ok (a, rest) := by
  unfold orElse at h
  split at h
  · exact .inr h
  · exact .inl h

theorem bind_orElse_of_mismatch {p q : Reader α} {f : α → Reader β} {m : List Char}
    (h : p text = .error (.mismatch m)) : (p.orElse q >>= f) text = (q >>= f) text := by
  simp only [bind, orElse_of_mismatch h]

theorem orElse_apply_error {p q : Reader α} {failure : Failure}
    (h : p text = .error failure) (hf : ∀ m, failure ≠ .mismatch m) :
    p.orElse q text = .error failure := by
  unfold orElse
  split
  case h_1 m hm =>
    rw [h] at hm
    cases hm
    exact absurd rfl (hf m)
  case h_2 => exact h

/-- A choice accepts what one of its readers accepts. -/
theorem choice_eq_ok {ps : List (Reader α)} {a : α} (h : choice ps text = .ok (a, rest)) :
    ∃ p ∈ ps, p text = .ok (a, rest) := by
  induction ps with
  | nil => cases h
  | cons p ps ih =>
      cases ps with
      | nil => exact ⟨p, by simp, h⟩
      | cons q ps =>
          rcases orElse_eq_ok h with hp | hps
          · exact ⟨p, by simp, hp⟩
          · obtain ⟨r, hr, ho⟩ := ih hps
            exact ⟨r, List.mem_cons_of_mem _ hr, ho⟩

/-- A choice of several readers tries the first one first. -/
theorem choice_cons {p : Reader α} {ps : List (Reader α)} (h : ps ≠ []) :
    choice (p :: ps) = p.orElse (choice ps) := by
  cases ps with
  | nil => exact absurd rfl h
  | cons q ps => rfl

/-- The first reader of a choice that does not report a mismatch decides. -/
theorem choice_append_cons (before : List (Reader α)) {after : List (Reader α)} {p : Reader α}
    {a : α}
    (hb : ∀ q ∈ before, ∃ m, q text = .error (.mismatch m)) (hp : p text = .ok (a, rest)) :
    choice (before ++ p :: after) text = .ok (a, rest) := by
  induction before with
  | nil =>
      cases after with
      | nil => exact hp
      | cons q after => exact orElse_of_ok hp
  | cons q before ih =>
      obtain ⟨m, hm⟩ := hb q (by simp)
      rw [List.cons_append, choice_cons (by simp), orElse_of_mismatch hm]
      exact ih fun r hr => hb r (List.mem_cons_of_mem _ hr)

/-- A choice reports a mismatch when all its readers do. -/
theorem choice_mismatch {ps : List (Reader α)}
    (h : ∀ p ∈ ps, ∃ m, p text = .error (.mismatch m)) :
    ∃ m, choice ps text = .error (.mismatch m) := by
  induction ps with
  | nil => exact ⟨text, rfl⟩
  | cons p ps ih =>
      obtain ⟨m, hm⟩ := h p (by simp)
      cases ps with
      | nil => exact ⟨m, hm⟩
      | cons q ps =>
          rw [choice_cons (by simp), orElse_of_mismatch hm]
          exact ih fun r hr => h r (List.mem_cons_of_mem _ hr)

/-- A choice accepts or reports a mismatch when each of its readers does. -/
theorem choice_or_mismatch {ps : List (Reader α)}
    (h : ∀ p ∈ ps, (∃ a r, p text = .ok (a, r)) ∨ ∃ m, p text = .error (.mismatch m)) :
    (∃ a r, choice ps text = .ok (a, r)) ∨ ∃ m, choice ps text = .error (.mismatch m) := by
  induction ps with
  | nil => exact .inr ⟨text, rfl⟩
  | cons p ps ih =>
      cases ps with
      | nil => exact h p (by simp)
      | cons q ps =>
          rw [choice_cons (by simp)]
          rcases h p (by simp) with ⟨a, r, hp⟩ | ⟨m, hp⟩
          · exact .inl ⟨a, r, orElse_of_ok hp⟩
          · rw [orElse_of_mismatch hp]
            exact ih fun r hr => h r (List.mem_cons_of_mem _ hr)

theorem optional_of_ok {p : Reader α} {a : α} (h : p text = .ok (a, rest)) :
    optional p text = .ok (some a, rest) :=
  orElse_of_ok (map_eq_ok_iff.mpr ⟨a, h, rfl⟩)

theorem optional_of_mismatch {p : Reader α} {m : List Char}
    (h : p text = .error (.mismatch m)) : optional p text = .ok (none, text) :=
  orElse_of_mismatch (map_apply_error h)

theorem optional_eq_ok {p : Reader α} {o : Option α} (h : optional p text = .ok (o, rest)) :
    (∃ a, o = some a ∧ p text = .ok (a, rest)) ∨ (o = none ∧ rest = text) := by
  rcases orElse_eq_ok h with h | h
  · obtain ⟨a, ha, rfl⟩ := map_eq_ok_iff.mp h
    exact .inl ⟨a, rfl, ha⟩
  · obtain ⟨rfl, rfl⟩ := pure_eq_ok_iff.mp h
    exact .inr ⟨rfl, rfl⟩

theorem many_of_mismatch {p : Reader α} {m : List Char} (h : p text = .error (.mismatch m)) :
    many p text = .ok ([], text) := by
  rw [many]
  simp [h]

theorem many_of_ok {p : Reader α} {a : α} {as : List α} {mid : List Char}
    (h : p text = .ok (a, mid)) (hlt : mid.length < text.length)
    (hm : many p mid = .ok (as, rest)) : many p text = .ok (a :: as, rest) := by
  rw [many]
  simp [h, hlt, hm]

/-- Repetition accepts one more reading in front of an accepted repetition, or
nothing. -/
theorem many_eq_ok {p : Reader α} {as : List α} (h : many p text = .ok (as, rest)) :
    (as = [] ∧ rest = text) ∨
      ∃ a as' mid, as = a :: as' ∧ p text = .ok (a, mid) ∧ mid.length < text.length ∧
        many p mid = .ok (as', rest) := by
  rw [many] at h
  split at h
  case h_1 a mid hp =>
    split at h
    case isTrue hlt =>
      split at h
      case h_1 as' rest' hm =>
        cases h
        exact .inr ⟨a, as', mid, rfl, hp, hlt, hm⟩
      case h_2 => cases h
    case isFalse =>
      cases h
      exact .inl ⟨rfl, rfl⟩
  case h_2 =>
    cases h
    exact .inl ⟨rfl, rfl⟩
  case h_3 => cases h

theorem within_mismatch {limit : Nat} {p : Reader α}
    (h : ∃ m, p text = .error (.mismatch m)) : ∃ m, within limit p text = .error (.mismatch m) := by
  by_cases hlt : text.length < limit
  · rwa [within_of_lt hlt]
  · exact ⟨text, within_of_ge (Nat.le_of_not_lt hlt)⟩

/-- What holds below the limit and of the mismatch beyond it holds of the limited reader. -/
theorem within_induction {p : Reader α} {P : List Char → Except Failure (α × List Char) → Prop}
    {limit : Nat} (hp : ∀ s, s.length < limit → P s (p s))
    (hlimit : ∀ s, P s (.error (.mismatch s))) (s : List Char) : P s (within limit p s) := by
  unfold within
  split
  case isTrue hlt => exact hp s hlt
  case isFalse => exact hlimit s

/-- What each unfolding keeps, and the mismatch at the limit of the recursion has, holds of the
recursion. -/
theorem fix_induction {step : Reader α → Reader α}
    {P : List Char → Except Failure (α × List Char) → Prop}
    (hstep : ∀ p : Reader α, (∀ s, P s (p s)) → ∀ s, P s (step p s))
    (hlimit : ∀ s, P s (.error (.mismatch s))) (s : List Char) : P s (fix step s) := by
  induction hn : s.length using Nat.strong_induction_on generalizing s with
  | _ n ih =>
      rw [fix_eq]
      exact hstep _ (within_induction (fun t hlt => ih _ (hn ▸ hlt) t rfl) hlimit) s

theorem literal_eq_ok_iff {word : String} :
    literal word text = .ok ((), rest) ↔ text = word.toList ++ rest := by
  unfold literal
  split
  case isTrue h =>
    obtain ⟨t, rfl⟩ := List.isPrefixOf_iff_prefix.mp h
    simp [← String.length_toList]
  case isFalse h =>
    simp only [reduceCtorEq, false_iff]
    rintro rfl
    exact h (List.isPrefixOf_iff_prefix.mpr (List.prefix_append _ _))

theorem literal_mismatch {word : String} (h : ¬ word.toList <+: text) :
    literal word text = .error (.mismatch text) := by
  unfold literal
  rw [if_neg]
  rwa [List.isPrefixOf_iff_prefix]

theorem literal_mismatch_of_head {word : String} {c d : Char} {ds t : List Char}
    (hw : word.toList = d :: ds) (h : d ≠ c) :
    literal word (c :: t) = .error (.mismatch (c :: t)) := by
  refine literal_mismatch ?_
  rintro ⟨u, hu⟩
  rw [hw, List.cons_append] at hu
  exact h (List.cons.inj hu).1

/-- A token is read between blanks. -/
theorem token_eq_ok_iff {p : Reader α} {a : α} :
    token p text = .ok (a, rest) ↔
      ∃ mid, p (afterBlanks text) = .ok (a, mid) ∧ rest = afterBlanks mid := by
  unfold token
  rw [bind_apply_ok (rfl : blanks text = .ok ((), afterBlanks text)), bind_eq_ok_iff]
  constructor
  · rintro ⟨b, mid, hp, hr⟩
    rw [bind_apply_ok (rfl : blanks mid = .ok ((), afterBlanks mid))] at hr
    obtain ⟨rfl, rfl⟩ := pure_eq_ok_iff.mp hr
    exact ⟨mid, hp, rfl⟩
  · rintro ⟨mid, hp, rfl⟩
    exact ⟨a, mid, hp, rfl⟩

theorem token_apply_error {p : Reader α} {failure : Failure}
    (h : p (afterBlanks text) = .error failure) : token p text = .error failure := by
  unfold token
  rw [bind_apply_ok (rfl : blanks text = .ok ((), afterBlanks text))]
  exact bind_apply_error h

/-- The longest run of a class and what follows it. -/
theorem takeWhile_dropWhile_eq_iff {ok : Char → Bool} {cs : List Char} :
    text.takeWhile ok = cs ∧ text.dropWhile ok = rest ↔
      text = cs ++ rest ∧ (∀ c ∈ cs, ok c = true) ∧ ∀ c t, rest = c :: t → ok c = false := by
  constructor
  · rintro ⟨rfl, rfl⟩
    refine ⟨List.takeWhile_append_dropWhile.symm, fun c hc => List.mem_takeWhile_imp hc, ?_⟩
    intro c t h
    have hhead := List.head?_dropWhile_not ok text
    rw [h] at hhead
    exact hhead
  · rintro ⟨rfl, hcs, hrest⟩
    rw [List.takeWhile_append_of_pos hcs, List.dropWhile_append_of_pos hcs]
    cases rest with
    | nil => simp
    | cons c t => simp [hrest c t rfl]

theorem run_eq_ok_iff {ok : Char → Bool} {cs : List Char} :
    run ok text = .ok (cs, rest) ↔
      cs ≠ [] ∧ text = cs ++ rest ∧ (∀ c ∈ cs, ok c = true) ∧
        ∀ c t, rest = c :: t → ok c = false := by
  rw [← takeWhile_dropWhile_eq_iff]
  unfold run
  split
  case h_1 h =>
    simp only [reduceCtorEq, h, false_iff]
    rintro ⟨hne, rfl, -⟩
    exact hne rfl
  case h_2 hne =>
    simp only [Except.ok.injEq, Prod.mk.injEq]
    constructor
    · rintro ⟨rfl, rfl⟩
      exact ⟨hne, rfl, rfl⟩
    · rintro ⟨-, rfl, rfl⟩
      exact ⟨rfl, rfl⟩

theorem run_mismatch {ok : Char → Bool} (h : text.takeWhile ok = []) :
    run ok text = .error (.mismatch text) := by
  unfold run
  rw [h]

theorem filterMap_eq_ok_iff {p : Reader α} {f : α → Option β} {b : β} :
    filterMap p f text = .ok (b, rest) ↔ ∃ a, p text = .ok (a, rest) ∧ f a = some b := by
  constructor
  · intro h
    unfold filterMap at h
    split at h
    case h_1 a mid hp =>
      split at h
      case h_1 c hf =>
        cases h
        exact ⟨a, hp, hf⟩
      case h_2 => cases h
    case h_2 => cases h
  · rintro ⟨a, hp, hf⟩
    simp [filterMap, hp, hf]

theorem form_eq_ok_iff {p : Reader α} {f : α → Except FormationError β} {b : β} :
    form p f text = .ok (b, rest) ↔ ∃ a, p text = .ok (a, rest) ∧ f a = .ok b := by
  constructor
  · intro h
    unfold form at h
    split at h
    case h_1 a mid hp =>
      split at h
      case h_1 c hf =>
        cases h
        exact ⟨a, hp, hf⟩
      case h_2 => cases h
    case h_2 => cases h
  · rintro ⟨a, hp, hf⟩
    simp [form, hp, hf]

theorem commit_eq_ok_iff {p : Reader α} {a : α} :
    commit p text = .ok (a, rest) ↔ p text = .ok (a, rest) := by
  unfold commit
  split
  case h_1 m h => simp [h]
  case h_2 => rfl

theorem unlessNext_eq_ok_iff {ok : Char → Bool} :
    unlessNext ok text = .ok ((), rest) ↔
      text = rest ∧ ∀ c t, text = c :: t → ok c = false := by
  cases text with
  | nil => simp [unlessNext]
  | cons c t => cases hc : ok c <;> simp [unlessNext, hc]

theorem map_orElse (f : α → β) (p q : Reader α) :
    f <$> p.orElse q = (f <$> p).orElse (f <$> q) := by
  funext text
  cases h : p text with
  | ok result =>
      have hp : p text = .ok (result.1, result.2) := h
      rw [orElse_of_ok (map_eq_ok_iff.mpr ⟨_, hp, rfl⟩)]
      exact map_eq_ok_iff.mpr ⟨_, orElse_of_ok h, rfl⟩
  | error failure =>
      by_cases hf : ∃ m, failure = .mismatch m
      · obtain ⟨m, rfl⟩ := hf
        rw [orElse_of_mismatch (map_apply_error h)]
        exact bind_orElse_of_mismatch h
      · rw [not_exists] at hf
        rw [map_apply_error (orElse_apply_error h hf), orElse_apply_error (map_apply_error h) hf]

theorem token_orElse  (p q : Reader α) : token (p.orElse q) = (token p).orElse (token q) := by
  funext text
  cases h : p (afterBlanks text) with
  | ok result =>
      have hp : p (afterBlanks text) = .ok (result.1, result.2) := h
      rw [orElse_of_ok (token_eq_ok_iff.mpr ⟨_, hp, rfl⟩)]
      exact token_eq_ok_iff.mpr ⟨_, orElse_of_ok h, rfl⟩
  | error failure =>
      by_cases hf : ∃ m, failure = .mismatch m
      · obtain ⟨m, rfl⟩ := hf
        rw [orElse_of_mismatch (token_apply_error h)]
        exact bind_orElse_of_mismatch h
      · rw [not_exists] at hf
        rw [token_apply_error (orElse_apply_error h hf),
          orElse_apply_error (token_apply_error h) hf]

/-- The conversion of a choice is the choice of the conversions. -/
theorem map_choice (f : α → β) (ps : List (Reader α)) :
    f <$> choice ps = choice (ps.map (f <$> ·)) := by
  induction ps with
  | nil => rfl
  | cons p ps ih =>
      cases ps with
      | nil => rfl
      | cons q ps => exact (map_orElse f p _).trans (congrArg _ ih)

theorem map_optional (f : α → β) (p : Reader α) :
    Option.map f <$> optional p = optional (f <$> p) := by
  rw [optional, map_orElse, Functor.map_map, map_pure, optional, Functor.map_map]
  rfl

/-- Blanks around a choice are blanks around each of its readers. -/
theorem token_choice {p : Reader α} {ps : List (Reader α)} :
    token (choice (p :: ps)) = choice ((p :: ps).map token) := by
  induction ps generalizing p with
  | nil => rfl
  | cons q ps ih => exact (token_orElse p _).trans (congrArg _ ih)

theorem token_map (f : α → β) (p : Reader α) : token (f <$> p) = f <$> token p := by
  simp [token]

end SignalLogic.Reader
