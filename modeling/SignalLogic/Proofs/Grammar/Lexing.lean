import SignalLogic.Grammar.Levels
import SignalLogic.Proofs.Reading
import SignalLogic.Proofs.Grammar.Derivation
import Mathlib

/-!
# Reading lexemes

The reader of every lexeme is held against the shape of the lexeme, both ways: what is
read has the shape, and what has the shape is read, if nothing comes next that would go
on with it.
-/

namespace SignalLogic.Grammar

open Reader

variable {α : Type} {s m r : List Char}

theorem isDigit_iff {c : Char} : c.isDigit = true ↔ 48 ≤ c.toNat ∧ c.toNat ≤ 57 := by
  simp [Char.isDigit, UInt32.le_iff_toNat_le, ← Char.toNat_val]

theorem isWhitespace_iff {c : Char} :
    c.isWhitespace = true ↔ c.toNat = 32 ∨ c.toNat = 9 ∨ c.toNat = 13 ∨ c.toNat = 10 := by
  simp [Char.isWhitespace, ← Char.toNat_inj, or_assoc]

theorem isSegmentHead_iff {c : Char} :
    isSegmentHead c = true ↔
      65 ≤ c.toNat ∧ c.toNat ≤ 90 ∨ 97 ≤ c.toNat ∧ c.toNat ≤ 122 ∨ c.toNat = 95 := by
  simp [isSegmentHead, Char.isAlpha, Char.isUpper, Char.isLower, UInt32.le_iff_toNat_le,
    ← Char.toNat_val, ← Char.toNat_inj, or_assoc]

theorem isSegmentTail_iff {c : Char} :
    isSegmentTail c = true ↔ isSegmentHead c = true ∨ c.isDigit = true := by
  simp only [isSegmentTail, isSegmentHead, Char.isAlphanum, Bool.or_eq_true]
  tauto

/-- Below 128 the words and the segments of variables have the same characters. -/
theorem isWordChar_of_lt {c : Char} (h : c.toNat < 128) : isWordChar c = isSegmentTail c := by
  rw [isWordChar, Text.isAlphanumeric_of_lt h, isSegmentTail, Bool.or_comm]

theorem blanks_afterBlanks (s : List Char) : Blanks s (afterBlanks s) := by
  induction s with
  | nil => exact .refl
  | cons c s ih =>
      cases hc : c.isWhitespace with
      | true => simpa [afterBlanks, hc] using Blanks.skip hc ih
      | false =>
          rw [afterBlanks_cons_of_not hc]
          exact .refl

theorem Blanks.trans (h : Blanks s m) (h' : Blanks m r) : Blanks s r := by
  induction h with
  | refl => exact h'
  | skip hc _ ih => exact .skip hc (ih h')

theorem Blanks.afterBlanks_eq (h : Blanks s r) : afterBlanks s = afterBlanks r := by
  induction h with
  | refl => rfl
  | skip hc _ ih => simpa [afterBlanks, hc] using ih

/-- Before blanks comes a blank, unless there are none. -/
theorem Blanks.head {c : Char} {t : List Char} (h : Blanks (c :: t) r) :
    c.isWhitespace = true ∨ r = c :: t := by
  cases h with
  | refl => exact .inr rfl
  | skip hc _ => exact .inl hc

/-- What holds of blanks and of what comes after them holds of the next character. -/
theorem head_of_afterBlanks {p : Char → Prop} (hb : ∀ c, c.isWhitespace = true → p c)
    (h : ∀ c t, afterBlanks s = c :: t → p c) {c : Char} {t : List Char} (hs : s = c :: t) :
    p c := by
  subst hs
  cases hc : c.isWhitespace with
  | true => exact hb c hc
  | false => exact h c t (afterBlanks_cons_of_not hc t)

theorem Spaced.of_blanks {lexeme : List Char → List Char → Prop} (hb : Blanks s m)
    (h : Spaced lexeme m r) : Spaced lexeme s r := by
  obtain ⟨s', r', hs, hl, hr⟩ := h
  exact ⟨s', r', hb.trans hs, hl, hr⟩

theorem Spaced.append_blanks {lexeme : List Char → List Char → Prop} (h : Spaced lexeme s m)
    (hb : Blanks m r) : Spaced lexeme s r := by
  obtain ⟨s', r', hs, hl, hr⟩ := h
  exact ⟨s', r', hs, hl, hr.trans hb⟩

/-- A lexeme that has a first character, which is no blank. -/
def Solid (lexeme : List Char → List Char → Prop) : Prop :=
  ∀ s r, lexeme s r → ∃ c t, s = c :: (t ++ r) ∧ c.isWhitespace = false

theorem spaced_of_token {p : Reader α} {a : α} {lexeme : List Char → List Char → Prop}
    (hp : ∀ {s r}, p s = .ok (a, r) → lexeme s r) (h : token p s = .ok (a, r)) :
    Spaced lexeme s r ∧ afterBlanks r = r := by
  obtain ⟨m, hm, rfl⟩ := token_eq_ok_iff.mp h
  exact ⟨⟨_, m, blanks_afterBlanks s, hp hm, blanks_afterBlanks m⟩, afterBlanks_afterBlanks m⟩

/-- Where a solid lexeme stands between blanks, it begins right after the first ones. -/
theorem Spaced.exists_of_solid {lexeme : List Char → List Char → Prop} (hl : Solid lexeme)
    (h : Spaced lexeme s r) : ∃ m, lexeme (afterBlanks s) m ∧ Blanks m r := by
  obtain ⟨s', m, hs, hsm, hm⟩ := h
  obtain ⟨c, t, rfl, hc⟩ := hl s' m hsm
  rw [hs.afterBlanks_eq, afterBlanks_cons_of_not hc]
  exact ⟨m, hsm, hm⟩

/-- The first blanks may be left out. -/
theorem Spaced.afterBlanks {lexeme : List Char → List Char → Prop} (hl : Solid lexeme)
    (h : Spaced lexeme s r) : Spaced lexeme (afterBlanks s) r := by
  obtain ⟨m, hm, hr⟩ := h.exists_of_solid hl
  exact ⟨_, m, .refl, hm, hr⟩

/-- A solid lexeme takes something off the text. -/
theorem Spaced.length_lt {lexeme : List Char → List Char → Prop} (hl : Solid lexeme)
    (h : Spaced lexeme s r) : (Reader.afterBlanks r).length < (Reader.afterBlanks s).length := by
  obtain ⟨m, hm, hr⟩ := h.exists_of_solid hl
  obtain ⟨c, t, hs, -⟩ := hl _ _ hm
  have hle := length_afterBlanks_le m
  rw [hs, ← hr.afterBlanks_eq, List.length_cons, List.length_append]
  omega

theorem token_of_spaced {p : Reader α} {a : α} {lexeme : List Char → List Char → Prop}
    (hl : Solid lexeme) (hp : ∀ {s m}, lexeme s m → Blanks m r → p s = .ok (a, m))
    (h : Spaced lexeme s r) : token p s = .ok (a, afterBlanks r) := by
  obtain ⟨m, hm, hr⟩ := h.exists_of_solid hl
  exact token_eq_ok_iff.mpr ⟨m, hp hm hr, hr.afterBlanks_eq.symm⟩

namespace Token

/-- The characters of a token. -/
def chars : Token → List Char
  | .symbol text => text.toList
  | .word text => text.toList

/-- The reader of a token. -/
def reader : Token → Reader Unit
  | .symbol text => Reader.symbol text
  | .word text => Reader.keyword text

/-- The token begins with a character that is no blank. -/
def isSolid (t : Token) : Bool :=
  t.chars.head?.any fun c => !c.isWhitespace

theorem Reads.eq_append {t : Token} (h : t.Reads s r) : s = t.chars ++ r := by
  cases t with
  | symbol text => exact h
  | word text => exact h.1

theorem exists_chars_of_isSolid {t : Token} (ht : t.isSolid = true) :
    ∃ c cs, t.chars = c :: cs ∧ c.isWhitespace = false := by
  unfold isSolid at ht
  cases hc : t.chars with
  | nil => simp [hc] at ht
  | cons c cs =>
      rw [hc] at ht
      exact ⟨c, cs, rfl, by simpa using ht⟩

/-- What a table tells of the first characters of its tokens. -/
theorem head_of_mem {table : List (Token × α)} {p : Char → Prop} [DecidablePred p]
    (htable : (table.all fun entry => entry.1.chars.head?.all (p ·)) = true) {t : Token} {a : α}
    (hmem : (t, a) ∈ table) {c : Char} {cs : List Char} (hc : t.chars = c :: cs) : p c := by
  have ht := List.all_eq_true.mp htable _ hmem
  rw [hc] at ht
  exact of_decide_eq_true ht

theorem solid_reads {t : Token} (ht : t.isSolid = true) : Solid t.Reads := by
  intro s r h
  obtain ⟨c, cs, hcs, hc⟩ := exists_chars_of_isSolid ht
  refine ⟨c, cs, ?_, hc⟩
  rw [h.eq_append, hcs, List.cons_append]

/-- Where a word ends, no segment goes on. -/
theorem wordEnd_of_unlessNext (h : unlessNext isWordChar s = .ok ((), r)) :
    s = r ∧ WordEnd r := by
  obtain ⟨rfl, hend⟩ := unlessNext_eq_ok_iff.mp h
  refine ⟨rfl, ?_⟩
  intro c t hs
  have hc : isWordChar c = false := hend c t hs
  by_contra htail
  have hlt : c.toNat < 128 := by
    rw [Bool.not_eq_false, isSegmentTail_iff, isSegmentHead_iff, isDigit_iff] at htail
    omega
  rw [isWordChar_of_lt hlt] at hc
  exact htail hc

theorem spaced_of_reader {t : Token} (h : t.reader s = .ok ((), r)) :
    Spaced t.Reads s r ∧ afterBlanks r = r := by
  cases t with
  | symbol text => exact spaced_of_token (fun h => literal_eq_ok_iff.mp h) h
  | word text =>
      refine spaced_of_token (fun h => ?_) h
      obtain ⟨⟨⟩, m, hl, hu⟩ := bind_eq_ok_iff.mp h
      obtain ⟨rfl, hend⟩ := wordEnd_of_unlessNext hu
      exact ⟨literal_eq_ok_iff.mp hl, hend⟩

/-- The next character, if there is one, is no letter or digit beyond the first 128
characters. -/
def PlainHead (s : List Char) : Prop :=
  ∀ c t, s = c :: t → c.toNat < 128

theorem symbol_of_spaced {text : String} (ht : (Token.symbol text).isSolid = true)
    (h : Spaced (Token.symbol text).Reads s r) :
    Reader.symbol text s = .ok ((), afterBlanks r) :=
  token_of_spaced (solid_reads ht) (fun h _ => literal_eq_ok_iff.mpr h) h

theorem reader_of_spaced {t : Token} (ht : t.isSolid = true) (hr : PlainHead r)
    (h : Spaced t.Reads s r) : t.reader s = .ok ((), afterBlanks r) := by
  cases t with
  | symbol text => exact symbol_of_spaced ht h
  | word text =>
      refine token_of_spaced (solid_reads ht) (fun {s m} h hm => ?_) h
      refine bind_eq_ok_iff.mpr ⟨(), m, literal_eq_ok_iff.mpr h.1, ?_⟩
      refine unlessNext_eq_ok_iff.mpr ⟨rfl, ?_⟩
      rintro c t rfl
      have hlt : c.toNat < 128 := by
        rcases hm.head with hc | rfl
        · rw [isWhitespace_iff] at hc
          omega
        · exact hr c t rfl
      rw [isWordChar_of_lt hlt]
      exact h.2 c t rfl

/-- A token is not read where its characters do not stand. -/
theorem reader_mismatch {t : Token} (h : ¬ t.chars <+: afterBlanks s) :
    ∃ m, t.reader s = .error (.mismatch m) := by
  cases t with
  | symbol text => exact ⟨_, token_apply_error (literal_mismatch h)⟩
  | word text => exact ⟨_, token_apply_error (bind_apply_error (literal_mismatch h))⟩

theorem reader_mismatch_of_head {t : Token} {c d : Char} {cs u : List Char}
    (hc : t.chars = c :: cs) (hs : afterBlanks s = d :: u) (hd : c ≠ d) :
    ∃ m, t.reader s = .error (.mismatch m) := by
  apply reader_mismatch
  rw [hs, hc]
  rintro ⟨v, hv⟩
  exact hd (List.cons.inj hv).1

theorem literal_or_mismatch (word : String) (s : List Char) :
    (∃ r, literal word s = .ok ((), r)) ∨ ∃ m, literal word s = .error (.mismatch m) := by
  by_cases h : word.toList <+: s
  · obtain ⟨r, rfl⟩ := h
    exact .inl ⟨r, literal_eq_ok_iff.mpr rfl⟩
  · exact .inr ⟨s, literal_mismatch h⟩

/-- The reader of a token accepts or reports a mismatch. -/
theorem reader_or_mismatch (t : Token) (s : List Char) :
    (∃ r, t.reader s = .ok ((), r)) ∨ ∃ m, t.reader s = .error (.mismatch m) := by
  cases t with
  | symbol text =>
      rcases literal_or_mismatch text (afterBlanks s) with ⟨r, hr⟩ | ⟨m, hm⟩
      · exact .inl ⟨_, token_eq_ok_iff.mpr ⟨r, hr, rfl⟩⟩
      · exact .inr ⟨m, token_apply_error hm⟩
  | word text =>
      rcases literal_or_mismatch text (afterBlanks s) with ⟨r, hr⟩ | ⟨m, hm⟩
      · cases hu : unlessNext isWordChar r with
        | ok result =>
            obtain ⟨⟨⟩, r'⟩ := result
            exact .inl ⟨_, token_eq_ok_iff.mpr ⟨r', bind_eq_ok_iff.mpr ⟨(), r, hr, hu⟩, rfl⟩⟩
        | error failure =>
            have hmismatch : failure = .mismatch r := by
              unfold unlessNext at hu
              split at hu
              · cases hu
              · split at hu <;> cases hu
                rfl
            subst hmismatch
            exact .inr ⟨r, token_apply_error (by rw [bind_apply_ok hr, hu])⟩
      · exact .inr ⟨m, token_apply_error (bind_apply_error hm)⟩

/-- Where a token does not stand, its reader reports a mismatch. -/
theorem reader_mismatch_of_not_reads {t : Token} (h : ∀ r, ¬ Spaced t.Reads s r) :
    ∃ m, t.reader s = .error (.mismatch m) := by
  rcases t.reader_or_mismatch s with ⟨r, hr⟩ | hm
  · exact absurd (spaced_of_reader hr).1 (h r)
  · exact hm

/-- Neither of two tokens begins with the other. -/
def apart (t u : Token) : Bool :=
  !t.chars.isPrefixOf u.chars && !u.chars.isPrefixOf t.chars

theorem apart_comm (t u : Token) : t.apart u = u.apart t :=
  Bool.and_comm _ _

/-- Where a token stands, none stands that is apart from it. -/
theorem not_prefix_of_apart {t u : Token} (h : t.apart u = true) :
    ¬ u.chars <+: t.chars ++ r := by
  intro hpre
  simp only [apart, Bool.and_eq_true, Bool.not_eq_true', ← Bool.not_eq_true,
    List.isPrefixOf_iff_prefix] at h
  rcases List.prefix_or_prefix_of_prefix hpre (List.prefix_append _ _) with hut | htu
  · exact h.2 hut
  · exact h.1 htu

/-- Of two tokens that are apart only one is read. -/
theorem reader_mismatch_of_apart {t u : Token} (ht : t.isSolid = true)
    (hu : t.apart u = true) (h : Spaced t.Reads s r) :
    ∃ m, u.reader s = .error (.mismatch m) := by
  obtain ⟨m, hm, -⟩ := h.exists_of_solid (solid_reads ht)
  refine reader_mismatch ?_
  rw [hm.eq_append]
  exact not_prefix_of_apart hu

end Token

theorem giving_eq_map (p : Reader Unit) (a : α) : giving p a = (fun _ => a) <$> p := by
  simp [giving]

theorem map_giving {β : Type} (f : α → β) (p : Reader Unit) (a : α) :
    f <$> giving p a = giving p (f a) := by
  simp [giving]

/-- The value of the first token of a table that is read. -/
def tokens (table : List (Token × α)) : Reader α :=
  choice (table.map fun entry => giving entry.1.reader entry.2)

theorem map_tokens {β : Type} (f : α → β) (table : List (Token × α)) :
    f <$> tokens table = tokens (table.map fun entry => (entry.1, f entry.2)) := by
  simp [tokens, map_choice, map_giving, Function.comp_def]

theorem spaced_of_tokens {table : List (Token × α)} {a : α}
    (h : tokens table s = .ok (a, r)) :
    ∃ t, (t, a) ∈ table ∧ Spaced t.Reads s r ∧ afterBlanks r = r := by
  obtain ⟨p, hp, hr⟩ := choice_eq_ok h
  obtain ⟨⟨t, b⟩, hmem, rfl⟩ := List.mem_map.mp hp
  rw [giving_eq_map] at hr
  obtain ⟨⟨⟩, ht, rfl⟩ := map_eq_ok_iff.mp hr
  exact ⟨t, hmem, Token.spaced_of_reader ht⟩

theorem giving_mismatch {t : Token} {a : α} (h : ∃ m, t.reader s = .error (.mismatch m)) :
    ∃ m, giving t.reader a s = .error (.mismatch m) := by
  obtain ⟨m, hm⟩ := h
  exact ⟨m, by rw [giving_eq_map, map_apply_error hm]⟩

theorem tokens_mismatch {table : List (Token × α)}
    (h : ∀ entry ∈ table, ∃ m, entry.1.reader s = .error (.mismatch m)) :
    ∃ m, tokens table s = .error (.mismatch m) := by
  refine choice_mismatch fun p hp => ?_
  obtain ⟨entry, hmem, rfl⟩ := List.mem_map.mp hp
  exact giving_mismatch (h entry hmem)

/-- A table is read or reports a mismatch. -/
theorem tokens_or_mismatch (table : List (Token × α)) (s : List Char) :
    (∃ a r, tokens table s = .ok (a, r)) ∨ ∃ m, tokens table s = .error (.mismatch m) := by
  refine choice_or_mismatch fun p hp => ?_
  obtain ⟨⟨t, a⟩, -, rfl⟩ := List.mem_map.mp hp
  rcases t.reader_or_mismatch s with ⟨r, hr⟩ | hm
  · refine .inl ⟨a, r, ?_⟩
    rw [giving_eq_map]
    exact map_eq_ok_iff.mpr ⟨(), hr, rfl⟩
  · exact .inr (giving_mismatch hm)

/-- No token of a table begins with a later one, unless what it has more is an equals
sign. -/
def Ordered (table : List (Token × α)) : Prop :=
  table.Pairwise fun e e' => e.1.apart e'.1 = true ∨ e.1.chars = e'.1.chars ++ ['=']

instance (table : List (Token × α)) : Decidable (Ordered table) :=
  inferInstanceAs (Decidable (List.Pairwise _ _))

/-- The table decides for the token that stands in the text, where no equals sign comes
after it. -/
theorem tokens_of_spaced {table : List (Token × α)} {t : Token} {a : α}
    (htable : Ordered table) (hmem : (t, a) ∈ table) (ht : t.isSolid = true)
    (hr : Token.PlainHead r) (heq : ∀ c u, r = c :: u → c ≠ '=')
    (h : Spaced t.Reads s r) : tokens table s = .ok (a, afterBlanks r) := by
  obtain ⟨before, after, rfl⟩ := List.append_of_mem hmem
  rw [tokens, List.map_append, List.map_cons]
  refine choice_append_cons _ (fun p hp => ?_) ?_
  · obtain ⟨e, he, rfl⟩ := List.mem_map.mp hp
    refine giving_mismatch ?_
    rcases (List.pairwise_append.mp htable).2.2 e he (t, a) (by simp) with hap | hext
    · exact Token.reader_mismatch_of_apart ht (Token.apart_comm _ _ ▸ hap) h
    · refine Token.reader_mismatch fun hpre => ?_
      obtain ⟨m, hm, hmr⟩ := h.exists_of_solid (Token.solid_reads ht)
      rw [hm.eq_append, hext, List.prefix_append_right_inj] at hpre
      obtain ⟨u, rfl⟩ := hpre
      rcases hmr.head with hc | rfl
      · exact absurd hc (by decide)
      · exact heq _ _ rfl rfl
  · rw [giving_eq_map]
    exact map_eq_ok_iff.mpr ⟨(), Token.reader_of_spaced ht hr h, rfl⟩

end SignalLogic.Grammar
