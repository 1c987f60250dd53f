import SignalLogic.Record

/-!
# Logged results

A pass over a formula returns its result together with the records that it emits.
In a sequence of passes the records of the first come first.
-/

namespace SignalLogic

/-- A result and the records emitted on the way to it. -/
structure Logged (α : Type) where
  value : α
  records : List Record

namespace Logged

variable {α β : Type}

instance : Monad Logged where
  pure a := ⟨a, []⟩
  bind m f := ⟨(f m.value).value, m.records ++ (f m.value).records⟩

/-- Emit one record. -/
def emit (r : Record) : Logged Unit :=
  ⟨(), [r]⟩

@[simp] theorem value_pure (a : α) : (pure a : Logged α).value = a := rfl

@[simp] theorem records_pure (a : α) : (pure a : Logged α).records = [] := rfl

@[simp] theorem value_bind (m : Logged α) (f : α → Logged β) :
    (m >>= f).value = (f m.value).value := rfl

@[simp] theorem records_bind (m : Logged α) (f : α → Logged β) :
    (m >>= f).records = m.records ++ (f m.value).records := rfl

@[simp] theorem value_map (g : α → β) (m : Logged α) : (g <$> m).value = g m.value := rfl

@[simp] theorem records_map (g : α → β) (m : Logged α) :
    (g <$> m).records = m.records := by
  simp [Functor.map]

@[simp] theorem records_emit (r : Record) : (emit r).records = [r] := rfl

end Logged

end SignalLogic
