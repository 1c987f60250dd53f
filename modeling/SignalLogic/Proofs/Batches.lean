import SignalLogic.Evaluator
import Mathlib.Data.List.Forall2

/-!
# Batches of samples

The native backend examines a whole batch before it applies its kernel to any sample, the
reference backend evaluates one sample after the other. Both come to the same result: the
values of all samples in order, or the error of the first sample that cannot be evaluated.
-/

namespace SignalLogic

section Traversal

variable {ε α β γ : Type} {f : α → Except ε β}

/-- Mapping the results of a traversal is mapping the result of each step. -/
theorem map_mapM (g : β → γ) (f : α → Except ε β) (xs : List α) :
    List.map g <$> xs.mapM f = xs.mapM fun x => g <$> f x := by
  induction xs with
  | nil => rfl
  | cons x xs ih =>
      rw [List.mapM_cons, List.mapM_cons, ← ih]
      simp only [map_bind, map_pure, bind_map_left, List.map_cons]

/-- A traversal succeeds with the results of all its steps. -/
theorem mapM_eq_ok_iff {xs : List α} {ys : List β} :
    xs.mapM f = .ok ys ↔ List.Forall₂ (fun x y => f x = .ok y) xs ys := by
  induction xs generalizing ys with
  | nil => cases ys <;> simp [pure, Except.pure]
  | cons x xs ih =>
      rw [List.mapM_cons, List.forall₂_cons_left_iff]
      cases hx : f x with
      | error e => simp [bind, Except.bind]
      | ok y =>
          simp only [← ih, Except.ok.injEq]
          cases xs.mapM f with
          | error e => simp [bind, Except.bind]
          | ok zs => simp [bind, Except.bind, pure, Except.pure, eq_comm]

/-- A traversal fails with the error of the first step that fails. -/
theorem mapM_eq_error_iff {xs : List α} {e : ε} :
    xs.mapM f = .error e ↔ ∃ before x after, xs = before ++ x :: after ∧
      (∀ y ∈ before, ∃ v, f y = .ok v) ∧ f x = .error e := by
  induction xs with
  | nil => simp [pure, Except.pure]
  | cons x xs ih =>
      rw [List.mapM_cons]
      cases hx : f x with
      | error e' =>
          change Except.error e' = .error e ↔ _
          rw [Except.error.injEq]
          constructor
          · rintro rfl
            exact ⟨[], x, xs, rfl, nofun, hx⟩
          · rintro ⟨_ | ⟨y, before⟩, z, after, hsplit, hbefore, hz⟩
            · obtain ⟨rfl, -⟩ := List.cons.inj hsplit
              exact Except.error.inj (hx.symm.trans hz)
            · obtain ⟨rfl, -⟩ := List.cons.inj hsplit
              obtain ⟨v, hv⟩ := hbefore x List.mem_cons_self
              cases hx.symm.trans hv
      | ok v =>
          have hrest : (do let ys ← xs.mapM f; pure (v :: ys)) = .error e ↔
              xs.mapM f = .error e := by
            cases xs.mapM f <;> simp [bind, Except.bind, pure, Except.pure]
          apply hrest.trans
          apply ih.trans
          constructor
          · rintro ⟨before, z, after, rfl, hbefore, hz⟩
            exact ⟨x :: before, z, after, rfl, List.forall_mem_cons.mpr ⟨⟨v, hx⟩, hbefore⟩, hz⟩
          · rintro ⟨_ | ⟨y, before⟩, z, after, hsplit, hbefore, hz⟩
            · obtain ⟨rfl, -⟩ := List.cons.inj hsplit
              cases hx.symm.trans hz
            · obtain ⟨-, rfl⟩ := List.cons.inj hsplit
              exact ⟨before, z, after, rfl, (List.forall_mem_cons.mp hbefore).2, hz⟩

end Traversal

namespace Operation

variable {k : Operation} {sample : List Value}

/-- A sample of any other length is refused with its length. -/
theorem update_of_length_ne (h : sample.length ≠ k.arity) :
    k.update sample = .error ⟨k, sample.length⟩ := by
  rcases sample with _ | ⟨x, _ | ⟨y, _ | ⟨z, rest⟩⟩⟩ <;> cases k <;>
    first | rfl | exact absurd rfl h

/-- Applying the kernel to an examined sample is updating the operation with it. -/
theorem kernel_checked (k : Operation) (sample : List Value) :
    k.kernel <$> k.checked sample = k.update sample := by
  unfold checked
  split
  case isTrue h =>
    cases k with
    | constant value =>
        obtain rfl := List.length_eq_zero_iff.mp h
        rfl
    | «variable» | abs =>
        obtain ⟨x, rfl⟩ := List.length_eq_one_iff.mp h
        rfl
    | arithmetic | comparison =>
        obtain ⟨x, y, rfl⟩ := List.length_eq_two.mp h
        rfl
  case isFalse h =>
    rw [update_of_length_ne h]
    rfl

/-- Examining all samples first changes neither the values nor the error. -/
theorem nativeBatch_eq_referenceBatch (k : Operation) (samples : List (List Value)) :
    k.nativeBatch samples = k.referenceBatch samples :=
  calc
    k.nativeBatch samples = List.map k.kernel <$> samples.mapM k.checked := rfl
    _ = samples.mapM fun sample => k.kernel <$> k.checked sample := map_mapM _ _ _
    _ = k.referenceBatch samples := by simp only [kernel_checked, referenceBatch]

end Operation

namespace Evaluator

theorem update_eq (e : Evaluator) (sample : List Value) :
    e.update sample = e.operation.update sample := by
  unfold update
  split
  · rfl
  · exact e.operation.kernel_checked sample

theorem updateBatch_eq (e : Evaluator) (samples : List (List Value)) :
    e.updateBatch samples = samples.mapM e.operation.update := by
  unfold updateBatch
  split
  · rfl
  · exact e.operation.nativeBatch_eq_referenceBatch samples

/-- In a native build every operation has an evaluator of either backend, and on every sample
and every batch both do what the operation itself does, directly and through the evaluator. A
batch has the values of its samples in order, or the error of the first sample that has one. -/
theorem backends_agree (k : Operation) (samples : List (List Value)) :
    (∀ sample, k.kernel <$> k.checked sample = k.update sample) ∧
    k.nativeBatch samples = k.referenceBatch samples ∧
    ∀ backend, ∃ e, select .native backend k = .ok e ∧ e.backend = backend ∧
      (∀ sample, e.update sample = k.update sample) ∧
      e.updateBatch samples = k.referenceBatch samples ∧
      (∀ values, e.updateBatch samples = .ok values ↔
        List.Forall₂ (fun sample value => e.update sample = .ok value) samples values) ∧
      ∀ error, e.updateBatch samples = .error error ↔
        ∃ before sample after, samples = before ++ sample :: after ∧
          (∀ earlier ∈ before, ∃ value, e.update earlier = .ok value) ∧
          e.update sample = .error error := by
  refine ⟨k.kernel_checked, k.nativeBatch_eq_referenceBatch samples, fun backend => ?_⟩
  have havailable : backend.isAvailable .native = true := by cases backend <;> rfl
  refine ⟨⟨backend, k⟩, select_eq_ok_iff.mpr ⟨havailable, rfl⟩, rfl, update_eq _,
    updateBatch_eq _ samples, fun values => ?_, fun error => ?_⟩
  · simp only [updateBatch_eq, update_eq]
    exact mapM_eq_ok_iff
  · simp only [updateBatch_eq, update_eq]
    exact mapM_eq_error_iff

end Evaluator

/-- Of two samples with the wrong number of values the first is reported. -/
example : (Operation.arithmetic .addition).nativeBatch [[1, 2], [3], []] =
    .error ⟨.arithmetic .addition, 1⟩ := rfl

end SignalLogic
