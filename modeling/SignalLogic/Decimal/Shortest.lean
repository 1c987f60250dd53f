import SignalLogic.Decimal

/-!
# Shortest decimals

Every finite double is a multiple of `10 ^ (-1074)`. The shortest decimal that
reads back as a double lies on the coarsest grid of powers of ten that has such a
decimal. If any point of a grid reads back, one of the two neighbours of the exact
value does, so the search tries these two on each grid, from coarse to fine. The
finest grid holds the exact value itself.
-/

namespace SignalLogic.Decimal

/-- Places of the finest grid. -/
def finest : Nat := 1074

/-- Exact magnitude of a code, in units of the finest grid. -/
def exactUnits (code : Nat) : Nat :=
  Binary64.units code * Nat.pow 5 finest

/-- The point `n` of the grid whose step is `10 ^ grid` units of the finest one. -/
def onGrid (grid n : Nat) : Decimal :=
  ⟨n * Nat.pow 10 (grid - finest), finest - grid⟩

/-- The neighbour of `exact` on a grid that reads back as `code`: of two, the
nearer one, and the greater one if they are equally near. -/
def neighbour? (code exact grid : Nat) : Option Decimal :=
  let step := Nat.pow 10 grid
  let below := onGrid grid (exact / step)
  let above := onGrid grid (exact / step + 1)
  if below.nearest = code ∧ (2 * (exact % step) < step ∨ above.nearest ≠ code) then some below
  else if above.nearest = code then some above
  else none

/-- Search of the grids up to `grid`, from coarse to fine. -/
def search (code exact : Nat) : Nat → Decimal
  | 0 => onGrid 0 exact
  | grid + 1 => (neighbour? code exact (grid + 1)).getD (search code exact grid)

/-- A grid so coarse that its step exceeds `exact`. -/
def coarsest (exact : Nat) : Nat :=
  (exact.log2 + 1) * 30103 / 100000 + 1

/-- The shortest decimal that reads back as a finite code. -/
def shortest (code : Nat) : Decimal :=
  if code = 0 then ⟨0, 0⟩
  else search code (exactUnits code) (coarsest (exactUnits code))

/-- A neighbour is taken only if it reads back. -/
theorem nearest_of_neighbour? {code exact grid : Nat} {d : Decimal}
    (h : neighbour? code exact grid = some d) : d.nearest = code := by
  simp only [neighbour?] at h
  split at h
  case isTrue hit => exact Option.some.inj h ▸ hit.1
  case isFalse =>
    split at h
    case isTrue hit => exact Option.some.inj h ▸ hit
    case isFalse => exact absurd h (by simp)

end SignalLogic.Decimal
