import SignalLogic.Proofs.Grammar.Parsing
import SignalLogic.Proofs.Grammar.Printing
import SignalLogic.Proofs.Grammar.Weight

/-!
# The round trip of texts

The canonical text of a formula is parsed as an equal formula exactly when the formula is
readable. The nodes of a parsed formula are plain, which leaves the constants; those that
are not finite make the text too heavy.
-/

namespace SignalLogic

open Grammar

variable {s r : List Char} {f g : Formula}

namespace Grammar

variable {ℓ : Level}

theorem Between.backend?_ne_native {op : BinaryOp} (h : Between ℓ op s r) :
    op.backend? ≠ some .native := by
  cases h with
  | plain hmem _ =>
      have htable : ∀ entry ∈ ℓ.operators, entry.2.backend? ≠ some .native := by
        cases ℓ <;> decide
      exact htable _ hmem
  | windowed _ _ _ => nofun

theorem Leading.backend?_ne_native {op : UnaryOp} (h : Leading op s r) :
    op.backend? ≠ some .native := by
  cases h with
  | plain hmem _ =>
      have htable : ∀ entry ∈ leadingOperators, entry.2.backend? ≠ some .native := by decide
      exact htable _ hmem
  | windowed _ _ _ => nofun

/-- An operator of the grammar makes a plain node. -/
theorem Between.all_plainNode {op : BinaryOp} (ho : Between ℓ op s r)
    (hf : f.All Formula.PlainNode) (hg : g.All Formula.PlainNode) :
    (Formula.binary op f g none).All Formula.PlainNode := by
  refine Formula.all_binary_iff.mpr ⟨Formula.plainNode_iff.mpr ⟨ho.backend?_ne_native, ?_⟩, hf, hg⟩
  cases op <;> rintro v ⟨⟩

theorem Leading.all_plainNode {op : UnaryOp} (ho : Leading op s r)
    (hf : f.All Formula.PlainNode) : (Formula.unary op f none).All Formula.PlainNode := by
  refine Formula.all_unary_iff.mpr ⟨Formula.plainNode_iff.mpr ⟨ho.backend?_ne_native, ?_⟩, hf⟩
  cases op <;> rintro v ⟨⟩

end Grammar

/-- All nodes of a derived formula are plain, if those of the chain were. -/
theorem Grammar.Derives.all_plainNode {phrase : Phrase} (h : Derives phrase f s r) :
    (∀ ℓ g, phrase = .further ℓ g → g.All Formula.PlainNode) → f.All Formula.PlainNode := by
  induction h with
  | number _ =>
      intro _
      exact Formula.all_leaf_iff.mpr (Formula.plainNode_iff.mpr ⟨nofun, nofun⟩)
  | @reference v _ _ h =>
      intro _
      obtain ⟨_, _, _, hv, _⟩ := h
      refine Formula.all_leaf_iff.mpr (Formula.plainNode_iff.mpr ⟨nofun, ?_⟩)
      rintro _ ⟨⟩
      exact (reference_iff.mp hv).1
  | parentheses _ _ _ ih =>
      intro _
      exact ih nofun
  | abs _ _ _ _ ih =>
      intro _
      exact Formula.all_unary_iff.mpr ⟨Formula.plainNode_iff.mpr ⟨nofun, nofun⟩, ih nofun⟩
  | chain _ _ _ ihf ihg =>
      intro _
      refine ihg ?_
      rintro _ _ ⟨⟩
      exact ihf nofun
  | finish =>
      intro hsofar
      exact hsofar _ _ rfl
  | extend ho _ _ ihg ihk =>
      intro hsofar
      refine ihk ?_
      rintro _ _ ⟨⟩
      exact ho.all_plainNode (hsofar _ _ rfl) (ihg nofun)
  | comparison _ ho _ ihf ihg | implication _ ho _ ihf ihg =>
      intro _
      exact ho.all_plainNode (ihf nofun) (ihg nofun)
  | leading ho _ ih =>
      intro _
      exact ho.all_plainNode (ih nofun)
  | tighter _ _ ih =>
      intro _
      exact ih nofun

/-- The parser makes plain nodes. -/
theorem plain_of_parse {text : String} (h : parse text = .ok f) : f.All Formula.PlainNode :=
  (parseChars_eq_ok_iff.mp h).all_plainNode nofun

/-- The constants of a formula are finite. -/
def Formula.FiniteConstants (f : Formula) : Prop :=
  f.All fun node => ∀ x, node.operator = .constant x → Binary64.isFinite x = true

/-- A text that is parsed as a formula equal to the printed one tells finite constants
only: an infinite one would make it heavier than the formula. -/
theorem finiteConstants_of_parse_name (h : parse f.name = .ok g) (hbeq : (g == f) = true) :
    f.FiniteConstants := by
  have hname : f.name.toList = f.chars := String.toList_ofList
  have hderives : Derives (.whole .formula) g f.chars [] := hname ▸ parseChars_eq_ok_iff.mp h
  have hprinted := f.weight_chars
  have hparsed : weight f.chars = g.operatorWeight := by
    simpa [Phrase.weight] using hderives.weight_eq
  rw [Formula.operatorWeight_congr hbeq] at hparsed
  exact Formula.finite_of_constantWeight (by omega)

/-- Plain nodes with finite constants can be told. -/
theorem Formula.Readable.of_plain (hplain : f.All Formula.PlainNode)
    (hfinite : f.FiniteConstants) : f.Readable := by
  intro node hnode
  exact ⟨hplain node hnode, hfinite node hnode⟩

/-- The text of a readable formula is parsed as the formula without its horizons. -/
theorem parse_name_of_readable (hf : f.Readable) : parse f.name = .ok (bare f) :=
  parseChars_eq_ok_iff.mpr (derives_name hf)

/-- The text of a formula is parsed as an equal formula exactly when the formula is
readable. -/
theorem parse_name_iff_readable (f : Formula) :
    (∃ g, parse f.name = .ok g ∧ (g == f) = true) ↔ f.Readable := by
  constructor
  · rintro ⟨g, hparse, hbeq⟩
    have hplain := Formula.all_plainNode_of_beq hbeq (plain_of_parse hparse)
    exact .of_plain hplain (finiteConstants_of_parse_name hparse hbeq)
  · intro hf
    exact ⟨bare f, parse_name_of_readable hf, bare_beq f⟩

end SignalLogic
