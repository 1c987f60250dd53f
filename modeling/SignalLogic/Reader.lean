import SignalLogic.FormationError
import SignalLogic.Text.Alphanumeric

/-!
# Readers

A reader takes a value off the front of a text and returns the rest, or fails at a
rest of the text. Choice and repetition recover from a mismatch, by going back to
where they were; nothing recovers from a failure inside a committed reader.

Repetition and recursion end because they go on only with a shorter rest.
-/

namespace SignalLogic

/-- Why and where reading failed; each failure holds the text from there on. -/
inductive Failure where
  | mismatch (rest : List Char)
  | committed (rest : List Char)
  | malformed (rest : List Char) (cause : FormationError)
  deriving DecidableEq

/-- Takes a value off the front of a text. -/
def Reader (α : Type) : Type :=
  List Char → Except Failure (α × List Char)

namespace Reader

variable {α β : Type}

instance : Monad Reader where
  pure a := fun text => .ok (a, text)
  bind p f := fun text =>
    match p text with
    | .ok (a, rest) => f a rest
    | .error failure => .error failure

@[simp] theorem pure_apply (a : α) (text : List Char) :
    (pure a : Reader α) text = .ok (a, text) := rfl

/-- A sequence goes on with the rest that its first reader leaves. -/
theorem bind_apply_ok {p : Reader α} {f : α → Reader β} {text rest : List Char} {a : α}
    (h : p text = .ok (a, rest)) : (p >>= f) text = f a rest := by
  simp only [bind, h]

/-- A sequence fails as its first reader does. -/
theorem bind_apply_error {p : Reader α} {f : α → Reader β} {text : List Char}
    {failure : Failure} (h : p text = .error failure) : (p >>= f) text = .error failure := by
  simp only [bind, h]

/-- A mismatch where the reader stands. -/
def mismatch : Reader α := fun text => .error (.mismatch text)

/-- Try `q` where `p` does not match. The mismatch of `q` is the one reported. -/
def orElse (p q : Reader α) : Reader α := fun text =>
  match p text with
  | .error (.mismatch _) => q text
  | result => result

/-- The first of several readers that matches. -/
def choice : List (Reader α) → Reader α
  | [] => mismatch
  | [p] => p
  | p :: ps => p.orElse (choice ps)

/-- Read with `p` if it matches. -/
def optional (p : Reader α) : Reader (Option α) :=
  orElse (some <$> p) (pure none)

/-- Report a mismatch of `p` so that nothing recovers from it. -/
def commit (p : Reader α) : Reader α := fun text =>
  match p text with
  | .error (.mismatch rest) => .error (.committed rest)
  | result => result

/-- Read with `p` as often as it matches and shortens the text. -/
def many (p : Reader α) (text : List Char) : Except Failure (List α × List Char) :=
  match p text with
  | .ok (a, rest) =>
      if rest.length < text.length then
        match many p rest with
        | .ok (as, rest) => .ok (a :: as, rest)
        | .error failure => .error failure
      else .ok ([], text)
  | .error (.mismatch _) => .ok ([], text)
  | .error failure => .error failure
termination_by text.length

/-- A reader defined by recursion; it may call itself on a shorter text only. -/
def fix (step : Reader α → Reader α) (text : List Char) : Except Failure (α × List Char) :=
  step (fun rest =>
    if rest.length < text.length then fix step rest else mismatch rest) text
termination_by text.length

/-- Read with `p` where fewer characters than the limit are left. -/
def within (limit : Nat) (p : Reader α) : Reader α := fun rest =>
  if rest.length < limit then p rest else mismatch rest

/-- Recursion unfolds once, with every call confined to a shorter text. -/
theorem fix_eq (step : Reader α → Reader α) (text : List Char) :
    fix step text = step (within text.length (fix step)) text := by
  rw [fix]
  rfl

/-- Within the limit nothing is lost. -/
theorem within_of_lt {limit : Nat} {p : Reader α} {rest : List Char}
    (h : rest.length < limit) : within limit p rest = p rest :=
  if_pos h

/-- Beyond the limit nothing matches. -/
theorem within_of_ge {limit : Nat} {p : Reader α} {rest : List Char}
    (h : limit ≤ rest.length) : within limit p rest = .error (.mismatch rest) :=
  if_neg (Nat.not_lt.2 h)

/-- Convert what `p` reads; where that is impossible, `p` does not match. -/
def filterMap (p : Reader α) (f : α → Option β) : Reader β := fun text =>
  match p text with
  | .ok (a, rest) =>
      match f a with
      | some b => .ok (b, rest)
      | none => .error (.mismatch text)
  | .error failure => .error failure

/-- Convert what `p` reads; an error is reported where `p` began. -/
def form (p : Reader α) (f : α → Except FormationError β) : Reader β := fun text =>
  match p text with
  | .ok (a, rest) =>
      match f a with
      | .ok b => .ok (b, rest)
      | .error cause => .error (.malformed text cause)
  | .error failure => .error failure

/-- Match, without reading anything, unless a character of the class comes next. -/
def unlessNext (ok : Char → Bool) : Reader Unit
  | [] => .ok ((), [])
  | c :: rest => if ok c then .error (.mismatch (c :: rest)) else .ok ((), c :: rest)

/-- Read the given text. -/
def literal (word : String) : Reader Unit := fun text =>
  if word.toList.isPrefixOf text then .ok ((), text.drop word.length)
  else .error (.mismatch text)

/-- Read the longest run of characters of a class, if it is not empty. -/
def run (ok : Char → Bool) : Reader (List Char) := fun text =>
  match text.takeWhile ok with
  | [] => .error (.mismatch text)
  | cs => .ok (cs, text.dropWhile ok)

/-- Read any blanks: spaces, tabs, carriage returns and line feeds. -/
def blanks : Reader Unit := fun text =>
  .ok ((), text.dropWhile Char.isWhitespace)

/-- Read with `p` between any blanks. -/
def token (p : Reader α) : Reader α := do
  blanks
  let a ← p
  blanks
  return a

/-- Read a text that stands for a symbol, between any blanks. -/
def symbol (word : String) : Reader Unit :=
  token (literal word)

/-- Words end before a character that is no letter, no digit and no underscore. -/
def isWordChar (c : Char) : Bool :=
  c = '_' || Text.isAlphanumeric c

/-- Read a whole word, between any blanks. -/
def keyword (word : String) : Reader Unit :=
  token (do literal word; unlessNext isWordChar)

end Reader

end SignalLogic
