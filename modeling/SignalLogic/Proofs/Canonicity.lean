import SignalLogic.Proofs.Reparsing

/-!
# Canonical texts

Readable formulas with the same text are equal, since the grammar is unambiguous. Equal
formulas have the same text but for the signs of zeros: equality takes both zeros for the
same value, and the text tells them apart.
-/

namespace SignalLogic

open Grammar

namespace Value

variable {x y : Value}

theorem isZero_congr (h : same x y = true) : isZero x = isZero y := by
  rcases of_decide_eq_true h with hbits | ⟨hx, hy⟩
  · rw [isZero, isZero, Binary64.code, Binary64.code, hbits]
  · rw [hx, hy]

/-- Two values are one double when they are the same value and, if that is zero, have the
same sign. -/
theorem eq_iff_same :
    x = y ↔ same x y = true ∧
      (isZero x = true → Binary64.isNegative x = Binary64.isNegative y) := by
  constructor
  · rintro rfl
    exact ⟨same_refl x, fun _ => rfl⟩
  · rintro ⟨hsame, hsign⟩
    rcases of_decide_eq_true hsame with hbits | ⟨hx, hy⟩
    · rw [← Float.ofBits_toBits x, hbits, Float.ofBits_toBits]
    · have hcode : Binary64.code x = Binary64.code y :=
        (of_decide_eq_true hx).trans (of_decide_eq_true hy).symm
      rw [← Binary64.ofCode_code x, hsign hx, hcode, Binary64.ofCode_code]

end Value

namespace LeafOp

/-- The sign of a constant that is zero. -/
def zeroSigns : LeafOp → List Bool
  | .constant x _ => if Value.isZero x then [Binary64.isNegative x] else []
  | .variable _ _ => []

variable {op op' : LeafOp}

theorem length_zeroSigns_congr (h : (op == op') = true) :
    op.zeroSigns.length = op'.zeroSigns.length := by
  cases op' with
  | constant y b =>
      cases op with
      | constant x b' =>
          have hsame : Value.same x y = true := (Bool.and_eq_true_iff.mp h).1
          rw [zeroSigns, zeroSigns, Value.isZero_congr hsame]
          split <;> rfl
      | «variable» _ _ => cases h
  | «variable» w b => rw [eq_variable_of_beq h]

/-- Leaves are the same when they are equal and a zero has the same sign in both. -/
theorem eq_iff_beq : op = op' ↔ (op == op') = true ∧ op.zeroSigns = op'.zeroSigns := by
  constructor
  · rintro rfl
    refine ⟨?_, rfl⟩
    cases op with
    | constant x b => simp [BEq.beq, LeafOp.beq, Value.same_refl]
    | «variable» v b => simp [BEq.beq, LeafOp.beq]
  · rintro ⟨hbeq, hsigns⟩
    cases op' with
    | constant y b =>
        cases op with
        | constant x b' =>
            obtain ⟨hsame, hbackend⟩ := Bool.and_eq_true_iff.mp hbeq
            obtain rfl := of_decide_eq_true hbackend
            have hvalue : x = y := by
              refine Value.eq_iff_same.mpr ⟨hsame, fun hzero => ?_⟩
              have hzero' := Value.isZero_congr hsame ▸ hzero
              simpa [zeroSigns, hzero, hzero'] using hsigns
            rw [hvalue]
        | «variable» _ _ => cases hbeq
    | «variable» w b => exact eq_variable_of_beq hbeq

end LeafOp

namespace Formula

/-- The signs of the zeros in a formula, from left to right. -/
def zeroSigns : Formula → List Bool
  | leaf op _ => op.zeroSigns
  | unary _ operand _ => operand.zeroSigns
  | binary _ left right _ => left.zeroSigns ++ right.zeroSigns

variable {f g : Formula}

/-- Horizons do not show in the text. -/
theorem chars_bare (f : Formula) : (bare f).chars = f.chars := by
  induction f with
  | leaf op _ => rfl
  | unary op f _ ih => rw [bare, chars, chars, ih]
  | binary op f g _ ihf ihg => rw [bare, chars, chars, ihf, ihg]

/-- Equal formulas have zeros in the same places. -/
theorem length_zeroSigns_congr (h : (f == g) = true) :
    f.zeroSigns.length = g.zeroSigns.length := by
  have halike := alike_iff_beq.mpr h
  clear h
  induction halike with
  | leaf hop => exact LeafOp.length_zeroSigns_congr hop
  | unary op _ ih => rw [zeroSigns, zeroSigns, ih]
  | binary op _ _ ihl ihr =>
      rw [zeroSigns, zeroSigns, List.length_append, List.length_append, ihl, ihr]

/-- Without horizons, formulas are the same when they are equal and their zeros have the
same signs. -/
theorem bare_eq_iff_beq : bare f = bare g ↔ (f == g) = true ∧ f.zeroSigns = g.zeroSigns := by
  induction f generalizing g with
  | leaf op _ =>
      cases g with
      | leaf op' _ =>
          rw [bare, bare, leaf.injEq, leaf_beq_leaf, LeafOp.eq_iff_beq]
          simp [zeroSigns]
      | unary | binary => exact iff_of_false (by rintro ⟨⟩) (by rintro ⟨⟨⟩, -⟩)
  | unary op f _ ih =>
      cases g with
      | unary op' g _ =>
          rw [bare, bare, unary.injEq, unary_beq_unary, ih, Bool.and_eq_true,
            beq_iff_eq (a := op)]
          simp [zeroSigns, and_assoc]
      | leaf | binary => exact iff_of_false (by rintro ⟨⟩) (by rintro ⟨⟨⟩, -⟩)
  | binary op f k _ ihf ihk =>
      cases g with
      | binary op' g l _ =>
          rw [bare, bare, binary.injEq, binary_beq_binary, ihf, ihk, Bool.and_eq_true,
            Bool.and_eq_true, beq_iff_eq (a := op), zeroSigns, zeroSigns]
          constructor
          · rintro ⟨hop, ⟨hleft, hsleft⟩, ⟨hright, hsright⟩, -⟩
            exact ⟨⟨⟨hop, hleft⟩, hright⟩, by rw [hsleft, hsright]⟩
          · rintro ⟨⟨⟨hop, hleft⟩, hright⟩, hsigns⟩
            -- The zeros on the left are as many in both, so the two lists split alike.
            obtain ⟨hsleft, hsright⟩ := List.append_inj hsigns (length_zeroSigns_congr hleft)
            exact ⟨hop, ⟨hleft, hsleft⟩, ⟨hright, hsright⟩, rfl⟩
      | leaf | unary => exact iff_of_false (by rintro ⟨⟩) (by rintro ⟨⟨⟩, -⟩)

/-- Readable formulas have the same text exactly when they are equal and their zeros have
the same signs. -/
theorem name_eq_iff_beq (hf : f.Readable) (hg : g.Readable) :
    f.name = g.name ↔ (f == g) = true ∧ f.zeroSigns = g.zeroSigns := by
  rw [← bare_eq_iff_beq]
  constructor
  · intro h
    -- The grammar is unambiguous, so the text leaves no choice of formula.
    have hderives := derives_name hf
    rw [h] at hderives
    exact hderives.unique (derives_name hg)
  · intro h
    rw [name, ← chars_bare, h, chars_bare, name]

theorem readable_ofValue_iff {x : Value} :
    (ofValue x).Readable ↔ Binary64.isFinite x = true := by
  constructor
  · intro h
    exact (all_leaf_iff.mp h).finite x rfl
  · intro h
    refine Readable.of_plain (all_leaf_iff.mpr ?_) (finiteConstants_ofValue_iff.mpr h)
    exact plainNode_iff.mpr ⟨nofun, nofun⟩

theorem readable_ofVariable_iff {v : Variable} : (ofVariable v).Readable ↔ v.Readable := by
  constructor
  · intro h
    exact (all_leaf_iff.mp h).named v rfl
  · intro h
    refine all_leaf_iff.mpr ⟨plainNode_iff.mpr ⟨nofun, fun w hw => ?_⟩, nofun⟩
    exact Operator.variable.inj hw ▸ h

/-- Horizons do not keep a readable comparison from having one text. -/
theorem name_eq_iff_beq_speedLimit :
    let rpm : Formula := ofVariable ((Variable.named "engine").withField "rpm")
    let limit (horizon : Option Offset) : Formula :=
      binary (.comparison .atMost .reference) rpm (ofValue (Binary64.ofCode true 0)) horizon
    (limit none).Readable ∧ (limit (some 3)).Readable ∧
      (limit none).name = (limit (some 3)).name := by
  intro rpm limit
  have hengine : IsSegment "engine" :=
    ⟨⟨'e', "ngine".toList, rfl, rfl, List.all_eq_true.mp rfl⟩, by decide⟩
  have hfield : IsSegment "rpm" :=
    ⟨⟨'r', "pm".toList, rfl, rfl, List.all_eq_true.mp rfl⟩, by decide⟩
  have hrpm : rpm.Readable :=
    readable_ofVariable_iff.mpr ⟨rfl, hfield, ["engine"], nofun, by simpa using hengine, rfl⟩
  have hzero : (ofValue (Binary64.ofCode true 0)).Readable :=
    readable_ofValue_iff.mpr (by decide +kernel)
  have hlimit (horizon : Option Offset) : (limit horizon).Readable :=
    all_binary_iff.mpr ⟨⟨plainNode_iff.mpr ⟨nofun, nofun⟩, nofun⟩, hrpm, hzero⟩
  exact ⟨hlimit none, hlimit (some 3),
    (name_eq_iff_beq (hlimit none) (hlimit (some 3))).mpr ⟨by decide +kernel, rfl⟩⟩

/-- Both zeros are equal and have different texts. -/
theorem name_ne_of_beq_zeros :
    (ofValue (Binary64.ofCode false 0)).Readable ∧ (ofValue (Binary64.ofCode true 0)).Readable ∧
      (ofValue (Binary64.ofCode false 0) == ofValue (Binary64.ofCode true 0)) = true ∧
      (ofValue (Binary64.ofCode false 0)).name ≠ (ofValue (Binary64.ofCode true 0)).name := by
  have hfinite (negative : Bool) : Binary64.isFinite (Binary64.ofCode negative 0) = true := by
    cases negative <;> decide +kernel
  refine ⟨readable_ofValue_iff.mpr (hfinite _), readable_ofValue_iff.mpr (hfinite _), ?_, ?_⟩
  · decide +kernel
  · decide +kernel

end Formula

end SignalLogic
