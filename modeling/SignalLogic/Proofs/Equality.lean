import SignalLogic.Formula.Equality

/-!
# Equal formulas

Equal formulas have the same operators in the same places and equal leaves. What equality
does not tell are the horizons, and in the leaves the signs of zeros.
-/

namespace SignalLogic.Formula

/-- Two formulas of one shape with the same operators and equal leaves. -/
inductive Alike : Formula → Formula → Prop
  | leaf {op op' : LeafOp} {h h' : Option Offset} (hop : (op == op') = true) :
      Alike (leaf op h) (leaf op' h')
  | unary (op : UnaryOp) {f f' : Formula} {h h' : Option Offset} (hf : Alike f f') :
      Alike (unary op f h) (unary op f' h')
  | binary (op : BinaryOp) {l l' r r' : Formula} {h h' : Option Offset} (hl : Alike l l')
      (hr : Alike r r') : Alike (binary op l r h) (binary op l' r' h')

variable {f g : Formula}

/-- Proofs about equal formulas go by induction on their likeness. -/
theorem alike_iff_beq : Alike f g ↔ (f == g) = true := by
  constructor
  · intro h
    induction h with
    | leaf hop => exact hop
    | unary op hf ih => simp [ih]
    | binary op hl hr ihl ihr => simp [ihl, ihr]
  · intro h
    induction f generalizing g with
    | leaf op _ =>
        cases g with
        | leaf op' _ => exact .leaf h
        | unary | binary => cases h
    | unary op f _ ih =>
        cases g with
        | unary op' f' _ =>
            rw [unary_beq_unary, Bool.and_eq_true, beq_iff_eq] at h
            obtain ⟨rfl, hf⟩ := h
            exact .unary op (ih hf)
        | leaf | binary => cases h
    | binary op l r _ ihl ihr =>
        cases g with
        | binary op' l' r' _ =>
            rw [binary_beq_binary, Bool.and_eq_true, Bool.and_eq_true, beq_iff_eq] at h
            obtain ⟨⟨rfl, hl⟩, hr⟩ := h
            exact .binary op (ihl hl) (ihr hr)
        | leaf | unary => cases h

end SignalLogic.Formula
