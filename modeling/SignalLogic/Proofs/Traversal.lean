import SignalLogic.Proofs.PreOrder
import Mathlib

/-!
# Traversals with a stack

An iterator over the nodes of a formula keeps the formulas that are still to be visited on a
stack. A call takes the top formula off and puts its operands on, the last one first. What is
left to yield is always the pre-orders of the formulas on the stack, from the top on, so the
calls come to an end and yield the pre-order of the formula, each position once.
-/

namespace SignalLogic.Formula

variable {f : Formula} {stack rest yielded : List Formula}

/-- One call of the iterator: what it yields and the stack that it leaves. The top of a stack
is its last entry. -/
def next? (stack : List Formula) : Option (Formula × List Formula) :=
  stack.getLast?.map fun f => (f, stack.dropLast ++ f.children.reverse)

/-- Calls of the iterator, from a stack on until there is nothing more, yield a list. -/
inductive Drains : List Formula → List Formula → Prop
  | done {stack : List Formula} (h : next? stack = none) : Drains stack []
  | call {stack rest yielded : List Formula} {f : Formula} (h : next? stack = some (f, rest))
      (tail : Drains rest yielded) : Drains stack (f :: yielded)

/-- The pre-orders of the formulas on a stack, one after the other from the top on. -/
def toYield (stack : List Formula) : List Formula :=
  stack.reverse.flatMap subformulas

theorem subformulas_eq_cons (f : Formula) :
    f.subformulas = f :: f.children.flatMap subformulas := by
  cases f <;> simp [subformulas, children]

theorem next?_eq_none_iff : next? stack = none ↔ stack = [] := by
  simp [next?]

/-- A call needs a formula on the stack and puts its operands in its place. -/
theorem next?_eq_some_iff :
    next? stack = some (f, rest) ↔
      ∃ below, stack = below ++ [f] ∧ rest = below ++ f.children.reverse := by
  constructor
  · intro h
    obtain ⟨g, hg, heq⟩ := Option.map_eq_some_iff.mp h
    obtain ⟨rfl, rfl⟩ := Prod.mk.inj heq
    exact ⟨stack.dropLast, (List.dropLast_append_getLast? g hg).symm, rfl⟩
  · rintro ⟨below, rfl, rfl⟩
    simp [next?]

/-- A call yields the first formula that is left to yield. -/
theorem toYield_of_next? (h : next? stack = some (f, rest)) :
    toYield stack = f :: toYield rest := by
  obtain ⟨below, rfl, rfl⟩ := next?_eq_some_iff.mp h
  simp [toYield, f.subformulas_eq_cons]

/-- From every stack on, the calls come to an end and yield what is left to yield. -/
theorem drains_iff : Drains stack yielded ↔ yielded = toYield stack := by
  constructor
  · intro h
    induction h with
    | done h => simp [next?_eq_none_iff.mp h, toYield]
    | call h _ ih => rw [toYield_of_next? h, ih]
  · intro h
    -- A call may put more formulas on the stack than it takes off, but what is left to yield
    -- gets shorter.
    induction yielded generalizing stack with
    | nil =>
        cases hnext : next? stack with
        | none => exact .done hnext
        | some _ => simp [toYield_of_next? hnext] at h
    | cons f yielded ih =>
        cases hnext : next? stack with
        | none => simp [next?_eq_none_iff.mp hnext, toYield] at h
        | some call =>
            obtain ⟨rfl, htail⟩ := List.cons.inj (h.trans (toYield_of_next? hnext))
            exact .call hnext (ih htail)

/-- The formula at a position, which tells for each step from the root on which operand to
take. -/
def at? (f : Formula) : List Nat → Option Formula
  | [] => some f
  | i :: path => f.children[i]?.bind fun g => g.at? path

/-- The positions of all nodes in pre-order. -/
def positions : Formula → List (List Nat)
  | leaf _ _ => [[]]
  | unary _ operand _ => [] :: operand.positions.map (0 :: ·)
  | binary _ left right _ =>
      [] :: (left.positions.map (0 :: ·) ++ right.positions.map (1 :: ·))

theorem nodup_positions (f : Formula) : f.positions.Nodup := by
  induction f with
  | leaf op h => exact List.nodup_singleton []
  | unary op operand h ih =>
      refine List.nodup_cons.mpr ⟨by simp, ih.map List.cons_injective⟩
  | binary op left right h ihl ihr =>
      have hapart : ∀ p ∈ left.positions.map (0 :: ·), ∀ q ∈ right.positions.map (1 :: ·),
          p ≠ q := by
        intro p hp q hq
        obtain ⟨p, -, rfl⟩ := List.mem_map.mp hp
        obtain ⟨q, -, rfl⟩ := List.mem_map.mp hq
        -- The first step leads to different operands.
        simp
      refine List.nodup_cons.mpr ⟨by simp, List.nodup_append.mpr ⟨?_, ?_, hapart⟩⟩
      · exact ihl.map List.cons_injective
      · exact ihr.map List.cons_injective

/-- The positions are those where there is a formula. -/
theorem mem_positions_iff (f : Formula) (path : List Nat) :
    path ∈ f.positions ↔ (f.at? path).isSome = true := by
  induction f generalizing path with
  | leaf op h => cases path <;> simp [positions, at?, children]
  | unary op operand h ih =>
      rcases path with _ | ⟨_ | i, path⟩ <;> simp [positions, at?, children, ih]
  | binary op left right h ihl ihr =>
      rcases path with _ | ⟨_ | _ | i, path⟩ <;> simp [positions, at?, children, ihl, ihr]

/-- The formulas at the positions are the nodes, in the same order. -/
theorem map_at?_positions (f : Formula) : f.positions.map f.at? = f.nodes.map some := by
  rw [nodes_eq_subformulas]
  induction f with
  | leaf op h => rfl
  | unary op operand h ih =>
      simp [positions, subformulas, ← ih, at?, children, Function.comp_def]
  | binary op left right h ihl ihr =>
      simp [positions, subformulas, ← ihl, ← ihr, at?, children, Function.comp_def]

/-- The nodes of a formula are the formula and then the nodes of its operands. -/
theorem nodes_eq_cons (f : Formula) : f.nodes = f :: f.children.flatMap nodes := by
  have hnodes : nodes = subformulas := funext nodes_eq_subformulas
  rw [hnodes]
  exact f.subformulas_eq_cons

theorem size_eq_sum (f : Formula) : f.size = 1 + (f.children.map size).sum := by
  rw [size, nodes_eq_cons, List.length_cons, List.length_flatMap, Nat.add_comm]
  rfl

/-- Each node of a path is a node of the formula. -/
theorem depth_le_size (f : Formula) : f.depth ≤ f.size := by
  induction f with
  | leaf op h => rw [size_leaf, depth]
  | unary op operand h ih =>
      rw [size_unary, depth]
      omega
  | binary op left right h ihl ihr =>
      rw [size_binary, depth]
      omega

theorem isPastOnly_iff_children (f : Formula) :
    f.isPastOnly = true ↔ f.isFuture = false ∧ ∀ g ∈ f.children, g.isPastOnly = true := by
  rw [isPastOnly, nodes_eq_cons, List.all_cons, List.all_flatMap, Bool.and_eq_true,
    Bool.not_eq_true', List.all_eq_true]
  rfl

/-- The traversal with a stack is the recursive pre-order. The calls of the iterator come to an
end, and what they yield is the formula and then the nodes of its operands from left to right, so
that each position of the formula is visited once. Hence a formula has one node more than its
operands have together, at least as many nodes as levels, and looks into the past alone if its
root does not look ahead and its operands look into the past alone. -/
theorem drains_iff_eq_nodes (f : Formula) :
    (∀ yielded, Drains [f] yielded ↔ yielded = f.nodes) ∧
    f.nodes = f :: f.children.flatMap nodes ∧
    (f.positions.Nodup ∧ (∀ path, path ∈ f.positions ↔ (f.at? path).isSome = true) ∧
      f.positions.map f.at? = f.nodes.map some) ∧
    f.size = 1 + (f.children.map size).sum ∧
    f.depth ≤ f.size ∧
    (f.isPastOnly = true ↔ f.isFuture = false ∧ ∀ g ∈ f.children, g.isPastOnly = true) := by
  refine ⟨fun yielded => ?_, f.nodes_eq_cons,
    ⟨f.nodup_positions, f.mem_positions_iff, f.map_at?_positions⟩, f.size_eq_sum,
    f.depth_le_size, f.isPastOnly_iff_children⟩
  rw [drains_iff, nodes_eq_subformulas]
  simp [toYield]

end SignalLogic.Formula
