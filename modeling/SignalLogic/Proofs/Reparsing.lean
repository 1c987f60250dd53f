import SignalLogic.Proofs.RoundTrip

/-!
# Parsing again

The nodes that the parser makes are plain, so the canonical text of a parsed formula is
parsed as an equal formula exactly when all constants are finite. The exception is real: a
literal that overflows is read as the infinite double, whose text is a word, and a word is
read as a variable.
-/

namespace SignalLogic

open Grammar

variable {text : String} {f g : Formula}

/-- Of what the parser accepts, the canonical text is parsed as an equal formula exactly
when all constants are finite. -/
theorem parse_name_of_parse_iff (h : parse text = .ok f) :
    (∃ g, parse f.name = .ok g ∧ (g == f) = true) ↔ f.FiniteConstants := by
  constructor
  · rintro ⟨g, hg, hbeq⟩
    exact finiteConstants_of_parse_name hg hbeq
  · intro hfinite
    have hreadable := Formula.Readable.of_plain (plain_of_parse h) hfinite
    exact ⟨bare f, parse_name_of_readable hreadable, bare_beq f⟩

/-- A number alone is parsed as the constant with its value. -/
theorem parse_of_number {x : Value} {s : List Char} (h : Spaced (Number x) s []) :
    parse (.ofList s) = .ok (.ofValue x) := by
  have hderives : Derives (.whole .formula) (.ofValue x) s [] :=
    Derives.loosen (ℓ := .atom) (by decide) (.number h)
  rw [parse, String.toList_ofList]
  exact parseChars_eq_ok_iff.mpr hderives

theorem Formula.finiteConstants_ofValue_iff {x : Value} :
    (Formula.ofValue x).FiniteConstants ↔ Binary64.isFinite x = true := by
  refine Formula.all_leaf_iff.trans ⟨fun h => h x rfl, fun h y hy => ?_⟩
  rwa [← Operator.constant.inj hy]

/-- A number alone is told again exactly if it does not overflow. -/
theorem parse_name_of_parse_number_iff {negative : Bool} {d : Decimal} {s : List Char}
    (h : Spaced (Number (.ofDecimal negative d)) s []) :
    (∃ f, parse (.ofList s) = .ok f ∧ ∃ g, parse f.name = .ok g ∧ (g == f) = true) ↔
      d.toRat < Binary64.overflow := by
  have hparse := parse_of_number h
  rw [← Value.isFinite_ofDecimal_iff, ← Formula.finiteConstants_ofValue_iff]
  constructor
  · rintro ⟨f, hf, g, hg, hbeq⟩
    obtain rfl := Except.ok.inj (hparse.symm.trans hf)
    exact finiteConstants_of_parse_name hg hbeq
  · intro hfinite
    have hreadable := Formula.Readable.of_plain (plain_of_parse hparse) hfinite
    exact ⟨_, hparse, _, parse_name_of_readable hreadable, bare_beq _⟩

/-- Blanks and superfluous digits do not keep a number from being told again. -/
theorem parse_name_of_parse_paddedNumber :
    ∃ f, parse " 007.50" = .ok f ∧ ∃ g, parse f.name = .ok g ∧ (g == f) = true := by
  have hwhole : Digits ['0', '0', '7'] := ⟨nofun, by simp⟩
  have hfraction : Digits ['5', '0'] := ⟨nofun, by simp⟩
  have hspaced := Spaced.of_blanks (.skip (c := ' ') rfl .refl)
    (spaced_of_reads (Number.positive (Magnitude.point (r := []) hwhole hfraction)))
  have hparse : parse " 007.50" = .ok (.ofValue _) := parse_of_number hspaced
  refine ⟨_, hparse, (parse_name_of_parse_iff hparse).mpr ?_⟩
  exact Formula.finiteConstants_ofValue_iff.mpr (by decide +kernel)

theorem digits_powerOfTen (n : Nat) : Digits ('1' :: List.replicate n '0') := by
  refine ⟨nofun, fun c hc => ?_⟩
  rcases List.mem_cons.mp hc with rfl | hzero
  · rfl
  · rw [List.eq_of_mem_replicate hzero]
    rfl

/-- Ten to the power of 309 is read as infinite and told as a word, which is read as a
variable. -/
theorem not_parse_name_of_parse_largeNumber :
    ∃ f, parse (.ofList ('1' :: List.replicate 309 '0')) = .ok f ∧
      ¬ ∃ g, parse f.name = .ok g ∧ (g == f) = true := by
  have hnumber := Number.positive (Magnitude.whole (r := []) (digits_powerOfTen 309))
  rw [List.append_nil] at hnumber
  refine ⟨_, parse_of_number (spaced_of_reads hnumber), ?_⟩
  rintro ⟨g, hg, hbeq⟩
  have hfinite := Formula.finiteConstants_ofValue_iff.mp (finiteConstants_of_parse_name hg hbeq)
  exact absurd hfinite (by decide +kernel)

end SignalLogic
