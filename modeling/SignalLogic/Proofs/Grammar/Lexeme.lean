import SignalLogic.Grammar.Token

/-!
# Lexemes of the formula language

What the words, symbols, numbers, intervals and variables of the language look like,
apart from any reader. A lexeme relates a text to what follows the lexeme in it. Words
and the segments of variables are maximal: no character that could go on with them
comes next. Blanks may stand around every lexeme and nowhere inside one.
-/

namespace SignalLogic.Grammar

/-- Any number of blanks, down to none, may be left out at the beginning of a text. -/
inductive Blanks : List Char → List Char → Prop
  | refl {s} : Blanks s s
  | skip {c s r} (hc : c.isWhitespace = true) (h : Blanks s r) : Blanks (c :: s) r

/-- A lexeme with blanks before and after it. -/
def Spaced (lexeme : List Char → List Char → Prop) (s r : List Char) : Prop :=
  ∃ s' r', Blanks s s' ∧ lexeme s' r' ∧ Blanks r' r

/-- No word and no segment of a variable goes on here. -/
def WordEnd (r : List Char) : Prop :=
  ∀ c t, r = c :: t → isSegmentTail c = false

/-- The fixed tokens of the language. -/
inductive Token where
  | symbol (text : String)
  | word (text : String)
  deriving DecidableEq

/-- A symbol stands wherever its characters do, a word only as a whole word. -/
def Token.Reads : Token → List Char → List Char → Prop
  | .symbol text, s, r => s = text.toList ++ r
  | .word text, s, r => s = text.toList ++ r ∧ WordEnd r

/-- One decimal digit or more. -/
def Digits (ds : List Char) : Prop :=
  ds ≠ [] ∧ ∀ c ∈ ds, c.isDigit = true

/-- Digits, and after a point more digits if there is a point. -/
inductive Magnitude : Decimal → List Char → List Char → Prop
  | whole {ds r} (h : Digits ds) : Magnitude (.ofDigits ds []) (ds ++ r) r
  | point {ds fs r} (h : Digits ds) (hf : Digits fs) :
      Magnitude (.ofDigits ds fs) (ds ++ '.' :: (fs ++ r)) r

/-- A decimal with an optional minus sign stands for the value nearest to it. -/
inductive Number : Value → List Char → List Char → Prop
  | positive {d s r} (h : Magnitude d s r) : Number (.ofDecimal false d) s r
  | negative {d s r} (h : Magnitude d s r) : Number (.ofDecimal true d) ('-' :: s) r

/-- Digits whose value is an offset, or the word for the infinite end. -/
inductive Bound : Endpoint → List Char → List Char → Prop
  | finite {n : Offset} {ds r} (h : Digits ds) (hn : Nat.ofDigitChars 10 ds 0 = n.toNat) :
      Bound (.finite n) (ds ++ r) r
  | infinite {r} : Bound .infinite ("inf".toList ++ r) r

/-- The bounds of an interval in whatever order, with a comma between them, and the closing
bracket. -/
def Ends (lower : Offset) (upper : Endpoint) (s r : List Char) : Prop :=
  ∃ s₁ s₂ s₃, Spaced (Bound (.finite lower)) s s₁ ∧ Spaced (Token.symbol ",").Reads s₁ s₂ ∧
    Spaced (Bound upper) s₂ s₃ ∧ Spaced (Token.symbol "]").Reads s₃ r

/-- The bounds of an interval in brackets, with a comma between them. -/
def Window (i : Interval) (s r : List Char) : Prop :=
  ∃ s₁ s₂ s₃ s₄, Spaced (Token.symbol "[").Reads s s₁ ∧
    Spaced (Bound (.finite i.lower)) s₁ s₂ ∧ Spaced (Token.symbol ",").Reads s₂ s₃ ∧
    Spaced (Bound i.upper) s₃ s₄ ∧ Spaced (Token.symbol "]").Reads s₄ r

/-- A letter or an underscore, followed by letters, digits and underscores, that is no
reserved word. -/
def IsSegment (w : String) : Prop :=
  (∃ c t, w.toList = c :: t ∧ isSegmentHead c = true ∧ ∀ d ∈ t, isSegmentTail d = true) ∧
    w ∉ reserved

/-- Maximal segments with single points between them. -/
inductive Path : List String → List Char → List Char → Prop
  | last {w r} (h : IsSegment w) (hr : WordEnd r) : Path [w] (w.toList ++ r) r
  | dot {w ws s r} (h : IsSegment w) (hs : Path ws s r) :
      Path (w :: ws) (w.toList ++ '.' :: s) r

/-- Of two or more segments the last one is the field, and the others are the name with
its points. -/
inductive Names : List String → Variable → Prop
  | plain {w} : Names [w] (.named w)
  | field {ws w} (h : ws ≠ []) :
      Names (ws ++ [w]) ((Variable.named (".".intercalate ws)).withField w)

/-- The variable that a path of segments names. -/
def Reference (v : Variable) (s r : List Char) : Prop :=
  ∃ ws, Path ws s r ∧ Names ws v

end SignalLogic.Grammar
