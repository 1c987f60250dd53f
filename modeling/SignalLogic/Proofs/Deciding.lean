import SignalLogic.Proofs.Reading

/-!
# Readers that decide

A reader decides a text when it reads a part of it or fails for good: then no other reader is
tried in its place. In a sequence of deciding readers the first failure is the one reported.
-/

namespace SignalLogic.Reader

variable {α β : Type} {s m r : List Char} {o o' : Option Failure}

/-- A repetition fails for good where its reader does. -/
theorem many_apply_error {p : Reader α} {e : Failure} (h : p s = .error e)
    (he : ∀ m, e ≠ .mismatch m) : many p s = .error e := by
  rw [many]
  split
  case h_1 hok => cases h.symm.trans hok
  case h_2 hmismatch =>
    cases h.symm.trans hmismatch
    exact absurd rfl (he _)
  case h_3 hfailure =>
    cases hfailure.symm.trans h
    rfl

/-- The reader leaves the given rest, or it fails for good as told. -/
inductive Decides (p : Reader α) (s : List Char) : Option Failure → List Char → Prop
  | reads {a r} (h : p s = .ok (a, r)) : Decides p s none r
  | fails {e r} (h : p s = .error e) (he : ∀ m, e ≠ .mismatch m) : Decides p s (some e) r

namespace Decides

variable {p q : Reader α} {f : α → Reader β}

theorem congr (h : Decides q m o r) (hpq : p s = q m) : Decides p s o r := by
  cases h with
  | reads h => exact .reads (hpq.trans h)
  | fails h he => exact .fails (hpq.trans h) he

theorem exists_ok (h : Decides p s none r) : ∃ a, p s = .ok (a, r) := by
  cases h with
  | reads h => exact ⟨_, h⟩

theorem eq_error {e : Failure} (h : Decides p s (some e) r) : p s = .error e := by
  cases h with
  | fails h => exact h

/-- A sequence fails as the first of its readers that fails. -/
theorem bind (h : Decides p s o m) (hf : ∀ a, p s = .ok (a, m) → Decides (f a) m o' r) :
    Decides (p >>= f) s (o.or o') r := by
  cases h with
  | reads h => exact (hf _ h).congr (bind_apply_ok h)
  | fails h he => exact .fails (bind_apply_error h) he

/-- What is read already cannot fail any more. -/
theorem bind_ok {a : α} (h : p s = .ok (a, m)) (hf : Decides (f a) m o r) :
    Decides (p >>= f) s o r :=
  hf.congr (bind_apply_ok h)

/-- What goes on in any case cannot fail. -/
theorem bind_reads {b : α → β} (h : Decides p s o m) (hf : ∀ a, f a m = .ok (b a, r)) :
    Decides (p >>= f) s o r := by
  have hreads := h.bind fun a _ => .reads (hf a)
  rwa [Option.or_none] at hreads

/-- What follows without reading anything cannot fail. -/
theorem bind_pure (h : Decides p s o r) (f : α → β) :
    Decides (p >>= fun a => pure (f a)) s o r :=
  h.bind_reads fun _ => rfl

theorem map (h : Decides p s o r) (f : α → β) : Decides (f <$> p) s o r :=
  h.bind_pure f

theorem orElse (h : Decides p s o r) : Decides (p.orElse q) s o r := by
  cases h with
  | reads h => exact .reads (orElse_of_ok h)
  | fails h he => exact .fails (orElse_apply_error h he) he

theorem optional (h : Decides p s o r) : Decides (optional p) s o r :=
  (h.map some).orElse

/-- The first reader of a choice that does not report a mismatch decides. -/
theorem choice (before : List (Reader α)) {after : List (Reader α)}
    (hb : ∀ q ∈ before, ∃ m, q s = .error (.mismatch m)) (h : Decides p s o r) :
    Decides (choice (before ++ p :: after)) s o r := by
  induction before with
  | nil =>
      cases after with
      | nil => exact h
      | cons q after => exact h.orElse
  | cons q before ih =>
      obtain ⟨m, hm⟩ := hb q (by simp)
      rw [List.cons_append, choice_cons (by simp)]
      exact (ih fun r hr => hb r (List.mem_cons_of_mem _ hr)).congr (orElse_of_mismatch hm)

/-- A repetition goes on after what takes something off the text. -/
theorem many (h : Decides p s o m) (hlt : m.length < s.length)
    (hm : Decides (many p) m o' r) : Decides (many p) s (o.or o') r := by
  cases h with
  | reads h =>
      cases hm with
      | reads hm => exact .reads (many_of_ok h hlt hm)
      | fails hm he =>
          refine .fails ?_ he
          rw [Reader.many]
          simp [h, hlt, hm]
  | fails h he => exact .fails (many_apply_error h he) he

end Decides

end SignalLogic.Reader
