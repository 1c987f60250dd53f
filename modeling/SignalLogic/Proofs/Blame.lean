import SignalLogic.Proofs.Demand

/-!
# What an undefined horizon is blamed on

The horizon of a formula is undefined for one of two reasons: some future operator has no finite
window, or the windows on some path add up to more than the greatest offset. The horizon pass
blames the first reason in both cases, so it is right exactly if there is such an operator or no
sum is too great.
-/

namespace SignalLogic

/-- A text begins as its first part does. -/
theorem head?_toList_append {c : Char} {s : String} (h : s.toList.head? = some c) (t : String) :
    (s ++ t).toList.head? = some c := by
  rw [String.toList_append, List.head?_append, h, Option.some_or]

namespace Record

/-- The record says to a debugger that a horizon depends on an unbounded future operator. -/
def BlamesFuture (r : Record) : Prop :=
  r.level = .debug ∧
    ∃ name : String, r.message = s!"horizon of {name} depends on an unbounded future operator"

theorem BlamesFuture.head?_message {r : Record} (h : r.BlamesFuture) :
    r.message.toList.head? = some 'h' := by
  obtain ⟨-, name, h⟩ := h
  rw [h]
  exact head?_toList_append (head?_toList_append (by decide) _) _

theorem blamesFuture_horizonUnbounded (name : String) :
    (horizonUnbounded name).BlamesFuture :=
  ⟨rfl, name, rfl⟩

/-- A horizon that was computed is blamed on nothing: the two messages begin differently. -/
theorem not_blamesFuture_horizonComputed (horizon : Offset) (name : String) :
    ¬ (horizonComputed horizon name).BlamesFuture := by
  intro h
  have hcomputed : (horizonComputed horizon name).message.toList.head? = some 'c' :=
    head?_toList_append (head?_toList_append (head?_toList_append (by decide) _) _) _
  rw [h.head?_message] at hcomputed
  exact absurd hcomputed (by decide)

end Record

namespace Formula

/-- The record on the root blames an unbounded future operator exactly if the paths ask for no
horizon. -/
theorem blamesFuture_summary_iff (f : Formula) : f.summary.BlamesFuture ↔ f.demand = none := by
  unfold summary
  cases h : f.demand with
  | none => simp [Record.blamesFuture_horizonUnbounded]
  | some horizon => simp [Record.not_blamesFuture_horizonComputed]

/-- Of all records of the horizon pass, only the one on the root is shown to a debugger. -/
theorem exists_blamesFuture_iff (f : Formula) :
    (∃ r ∈ f.computeHorizon.records, r.BlamesFuture) ↔ f.demand = none := by
  rw [← blamesFuture_summary_iff, records_computeHorizon, records_annotate]
  constructor
  · rintro ⟨r, hr, hblames⟩
    rcases List.mem_append.mp hr with htraced | hroot
    · obtain ⟨v, -, rfl⟩ := List.mem_map.mp htraced
      exact absurd hblames.1 (by simp [Record.level])
    · rwa [← List.mem_singleton.mp hroot]
  · intro hblames
    exact ⟨f.summary, by simp, hblames⟩

/-- Some path reaches beyond the greatest offset exactly if the formula does. -/
theorem exists_size_le_pathReaches_iff (f : Formula) :
    (∃ s ∈ f.pathReaches, UInt64.size ≤ s) ↔ UInt64.size ≤ f.reach := by
  constructor
  · rintro ⟨s, hs, hsize⟩
    exact Nat.le_trans hsize ((f.pathReaches_le_iff f.reach).mpr (Nat.le_refl _) s hs)
  · intro hsize
    exact ⟨f.reach, f.reach_mem_pathReaches, hsize⟩

/-- The paths ask for no horizon for two reasons: an operator on them is open, or one of them
reaches beyond the greatest offset. -/
theorem demand_eq_none_iff (f : Formula) :
    f.demand = none ↔
      (∃ g ∈ f.nodes, g.isOpenFuture = true) ∨ ∃ s ∈ f.pathReaches, UInt64.size ≤ s := by
  rw [exists_size_le_pathReaches_iff, nodes_eq_subformulas, ← List.any_eq_true, demand,
    max?_pathReaches, Option.bind_some]
  cases f.subformulas.any isOpenFuture with
  | true => simp
  | false => simp [Offset.ofNat?]

/-- The horizon pass blames an unbounded future operator exactly if the formula has a future
operator whose window is absent or infinite, or a path on which the upper ends of the finite
windows of the future operators add up to more than the greatest offset. So the blame is right
exactly if there is such an operator or no such path. -/
theorem blamesFuture_iff_open_or_overflow (f : Formula) :
    let blamed := ∃ r ∈ f.computeHorizon.records, r.BlamesFuture
    let hasOpen := ∃ g ∈ f.nodes, g.isOpenFuture = true
    (blamed ↔ hasOpen ∨ ∃ s ∈ f.pathReaches, UInt64.size ≤ s) ∧
    ((blamed ↔ hasOpen) ↔ hasOpen ∨ ∀ s ∈ f.pathReaches, s < UInt64.size) := by
  intro blamed hasOpen
  have hblamed : blamed ↔ hasOpen ∨ ∃ s ∈ f.pathReaches, UInt64.size ≤ s :=
    f.exists_blamesFuture_iff.trans f.demand_eq_none_iff
  refine ⟨hblamed, ?_⟩
  rw [hblamed]
  by_cases hopen : hasOpen
  · simp [hopen]
  · simp [hopen]

/-- Somewhere in the longest window there is a sample at which, or right after which, a request
comes. -/
def requestSometime : Formula :=
  .unaryTemporal .eventually (some (.upTo 18446744073709551615))
    (.unaryTemporal .eventually (some (.upTo 1)) (.ofVariable (.named "req")))

/-- Both windows are finite, and still an unbounded future operator is blamed: together they
reach one sample beyond the greatest offset. -/
theorem blamesFuture_requestSometime :
    (∃ r ∈ requestSometime.computeHorizon.records, r.BlamesFuture) ∧
      ¬ ∃ g ∈ requestSometime.nodes, g.isOpenFuture = true := by
  refine ⟨requestSometime.exists_blamesFuture_iff.mpr (by decide), ?_⟩
  rw [nodes_eq_subformulas]
  decide

end Formula

end SignalLogic
