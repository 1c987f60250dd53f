import SignalLogic.Proofs.FixedPoints
import SignalLogic.Proofs.Reparsing

/-!
# Texts of pastified formulas

Whether a formula can be told by a text is decided by its evaluated nodes, which are the
constants, the variables and what is computed of them. Pastification keeps all of them and
adds none, and what it adds besides are operators and windows that every text can tell. So a
pastified formula is read back from its own text exactly when the formula itself can be told.
-/

namespace SignalLogic

open Grammar

namespace Formula

variable {f g : Formula}

/-- An evaluated node that a text tells: it uses the reference backend, and its variable or
its constant can be told. -/
structure ReadableEvaluation (e : Operator × Evaluator) : Prop where
  reference : e.2.backend = .reference
  named : ∀ v, e.1 = .variable v → v.Readable
  finite : ∀ x, e.1 = .constant x → Binary64.isFinite x = true

/-- The nodes with an operation are evaluated. -/
theorem exists_evaluation (h : f.operator.operation?.isSome = true) :
    ∃ e, f.evaluation? = some (f.operator, e) := by
  obtain ⟨k, hk⟩ := Option.isSome_iff_exists.mp h
  obtain ⟨b, hb⟩ := Option.isSome_iff_exists.mp (f.isSome_backend?.trans h)
  have he : f.evaluator? = some ⟨b, k⟩ := evaluator?_eq_some_iff.mpr ⟨hb, hk⟩
  exact ⟨⟨b, k⟩, by rw [evaluation?, he, Option.map_some]⟩

/-- A node can be told when its evaluation can, if it has one. -/
theorem readableNode_iff :
    f.ReadableNode ↔ ∀ e, f.evaluation? = some e → ReadableEvaluation e := by
  constructor
  · intro h e he
    obtain ⟨e, hevaluator, rfl⟩ := Option.map_eq_some_iff.mp he
    exact ⟨h.reference e hevaluator, h.named, h.finite⟩
  · intro h
    refine ⟨⟨fun e he => ?_, fun v hv => ?_⟩, fun x hx => ?_⟩
    · exact (h (f.operator, e) (by rw [evaluation?, he, Option.map_some])).reference
    · obtain ⟨e, he⟩ := exists_evaluation (f := f) (by rw [hv]; rfl)
      exact (h _ he).named v hv
    · obtain ⟨e, he⟩ := exists_evaluation (f := f) (by rw [hx]; rfl)
      exact (h _ he).finite x hx

/-- A formula can be told when all its evaluated nodes can. -/
theorem readable_iff_evaluated : f.Readable ↔ ∀ e ∈ f.evaluated, ReadableEvaluation e := by
  simp only [Readable, All, nodes_eq_subformulas, readableNode_iff, evaluated, List.mem_filterMap]
  constructor
  · rintro h e ⟨g, hg, he⟩
    exact h g hg e he
  · intro h g hg e he
    exact h e ⟨g, hg, he⟩

/-- Pastification neither makes a formula readable nor keeps it from being so. -/
theorem readable_pastifyWithin_iff (budget : Offset) :
    (f.pastifyWithin budget).value.Readable ↔ f.Readable := by
  rw [readable_iff_evaluated, evaluated_pastifyWithin, ← readable_iff_evaluated]

/-- Only of a readable formula the text is parsed as an equal one. -/
theorem readable_of_parse_name (h : parse f.name = .ok g) (hbeq : (g == f) = true) :
    f.Readable :=
  .of_plain (all_plainNode_of_beq hbeq (plain_of_parse h)) (finiteConstants_of_parse_name h hbeq)

/-- Pastified formulas stay inside the language. Under every budget, the text of the pastified
formula is parsed as that very formula exactly when the formula itself can be told: when its
constants are finite, its evaluators use the reference backend, and its variables are inputs
that are named by segments. If it cannot be told, its text is not even parsed as an equal
formula. -/
theorem parse_name_pastify_iff (f : Formula) (n : Offset) :
    let past := (f.pastifyWithHorizon n).value
    (parse past.name = .ok past ↔ f.Readable) ∧
    ((∃ g, parse past.name = .ok g ∧ (g == past) = true) ↔ f.Readable) := by
  intro past
  have hreadable : past.Readable ↔ f.Readable := readable_pastifyWithin_iff n
  have hbare : bare past = past := bare_eq_self (f.horizons_pastifyWithin n)
  have hbeq : (past == past) = true := by
    have := bare_beq past
    rwa [hbare] at this
  have hparse (h : f.Readable) : parse past.name = .ok past := by
    have := parse_name_of_readable (hreadable.mpr h)
    rwa [hbare] at this
  refine ⟨⟨fun h => ?_, hparse⟩, ⟨?_, fun h => ⟨past, hparse h, hbeq⟩⟩⟩
  · exact hreadable.mp (readable_of_parse_name h hbeq)
  · rintro ⟨g, hg, hequal⟩
    exact hreadable.mp (readable_of_parse_name hg hequal)

end Formula

end SignalLogic
