import SignalLogic.Operation

/-!
# Evaluators

An evaluator applies an operation with one of two backends. The reference backend
works sample by sample. The native backend resolves the operation to a kernel once
per batch; it is there only in a library built with it.
-/

namespace SignalLogic

/-- How operations are carried out. -/
inductive Backend where
  | reference
  | native
  deriving DecidableEq

/-- How the library was built. -/
inductive Build where
  | standard
  | native
  deriving DecidableEq

namespace Backend

/-- Name of the backend in messages. -/
def name : Backend → String
  | .reference => "Reference"
  | .native => "Native"

/-- The reference backend is part of every build. -/
def isAvailable (build : Build) : Backend → Bool
  | .reference => true
  | .native => build = .native

end Backend

/-- A backend was requested that the build does not have. -/
structure UnavailableBackend where
  backend : Backend
  operation : Operation

/-- The wording shown to a user. -/
def UnavailableBackend.message (e : UnavailableBackend) : String :=
  s!"Backend {e.backend.name} is unavailable for operation {e.operation.text}"

/-- An operation with the backend that carries it out. -/
structure Evaluator where
  backend : Backend
  operation : Operation
  deriving BEq

/-- Function of exactly as many values as an operation consumes. -/
abbrev Kernel (arity : Nat) := Vector Value arity → Value

namespace Operation

/-- The function that an operation stands for. -/
def kernel : (k : Operation) → Kernel k.arity
  | .constant value => fun _ => value
  | .variable => fun x => x.get ⟨0, Nat.one_pos⟩
  | .abs => fun x => (x.get ⟨0, Nat.one_pos⟩).abs
  | .arithmetic op => fun x => op.apply (x.get ⟨0, Nat.two_pos⟩) (x.get ⟨1, Nat.one_lt_two⟩)
  | .comparison op => fun x => op.robustness (x.get ⟨0, Nat.two_pos⟩) (x.get ⟨1, Nat.one_lt_two⟩)

/-- A sample with the number of values that an operation consumes. -/
def checked (k : Operation) (sample : List Value) :
    Except InputError (Vector Value k.arity) :=
  if h : sample.length = k.arity then .ok ⟨sample.toArray, h⟩
  else .error ⟨k, sample.length⟩

/-- The reference batch stops at the first sample that cannot be evaluated. -/
def referenceBatch (k : Operation) (samples : List (List Value)) :
    Except InputError (List Value) :=
  samples.mapM k.update

/-- The native batch examines every sample before it applies its kernel. -/
def nativeBatch (k : Operation) (samples : List (List Value)) :
    Except InputError (List Value) := do
  let vectors ← samples.mapM k.checked
  return vectors.map k.kernel

end Operation

namespace Evaluator

/-- The evaluator of an operation for a backend, if the build has it. -/
def select (build : Build) (backend : Backend) (operation : Operation) :
    Except UnavailableBackend Evaluator :=
  if backend.isAvailable build then .ok ⟨backend, operation⟩
  else .error ⟨backend, operation⟩

/-- Apply the operation to one sample. -/
def update (e : Evaluator) (sample : List Value) : Except InputError Value :=
  match e.backend with
  | .reference => e.operation.update sample
  | .native => e.operation.kernel <$> e.operation.checked sample

/-- Apply the operation to several samples, in order. -/
def updateBatch (e : Evaluator) (samples : List (List Value)) :
    Except InputError (List Value) :=
  match e.backend with
  | .reference => e.operation.referenceBatch samples
  | .native => e.operation.nativeBatch samples

/-- Selection succeeds exactly for an available backend and changes neither part. -/
theorem select_eq_ok_iff {build : Build} {backend : Backend} {k : Operation} {e : Evaluator} :
    select build backend k = .ok e ↔ backend.isAvailable build = true ∧ e = ⟨backend, k⟩ := by
  unfold select
  split
  case isTrue h => simp [h, eq_comm]
  case isFalse h => simp [h]

end Evaluator

end SignalLogic
