import StyleBook.Number.Basic

namespace StyleBook

/-!
# The shortest decimal of a number

The fewest decimal digits that read back as the same number, and of those the nearest to it.

* `ReadsBack` — the rationals that round to one number, as an interval;
* `Decimal` — a coefficient and a power of ten;
* `Decimal.shortest` — grids of 1, 2, … 17 significant digits are tried in turn: the first one
  with a point among the two neighbours of the number that reads back wins; of two such points
  the nearer, and the larger one halfway.
-/

/-- The interval of rationals that round to one representable magnitude. -/
structure ReadsBack where
  /-- The lower end. -/
  low : Rat
  /-- The upper end. -/
  high : Rat
  /-- Whether the ends belong to the interval. -/
  closed : Bool

namespace ReadsBack

/-- The interval of the magnitude `m · 2 ^ place`. The ends are halfway to the neighbours and
    go to the even significand; below a power of two the neighbour is twice as near. -/
def ofSignificand (m : Nat) (place : Int) : ReadsBack where
  low :=
    if m = Nat.pow 2 52 ∧ -1074 < place then Number.dyadic (4 * m - 1) (place - 2)
    else Number.dyadic (2 * m - 1) (place - 1)
  high := Number.dyadic (2 * m + 1) (place - 1)
  closed := m % 2 == 0

/-- Whether a rational lies in the interval. -/
def contains (i : ReadsBack) (q : Rat) : Bool :=
  if i.closed then i.low ≤ q && q ≤ i.high else i.low < q && q < i.high

end ReadsBack

/-- A decimal magnitude: `coefficient · 10 ^ exponent`. -/
structure Decimal where
  /-- All digits, without the point. -/
  coefficient : Nat
  /-- The place of the last digit. -/
  exponent : Int
  deriving DecidableEq, Repr

namespace Decimal

/-- The power of ten, as a rational. -/
def tenTo (e : Int) : Rat := mkRat (Nat.pow 10 e.toNat) (Nat.pow 10 (-e).toNat)

/-- The rational that a decimal denotes. -/
def toRat (d : Decimal) : Rat := d.coefficient * tenTo d.exponent

/-- The place of the first digit of `n / d`: the greatest `e` with `10 ^ e ≤ n / d`. The count
    of digits of `n` and `d` is off by at most one. -/
def firstPlace (n d : Nat) : Int :=
  let guess : Int := (Nat.toDigits 10 n).length - (Nat.toDigits 10 d).length
  if d * Nat.pow 10 guess.toNat ≤ n * Nat.pow 10 (-guess).toNat then guess else guess - 1

/-- The decimal without trailing zeros, `n` of which are removed at most. -/
def strip : Nat → Decimal → Decimal
  | n + 1, d =>
    if d.coefficient % 10 = 0 ∧ d.coefficient ≠ 0 then strip n ⟨d.coefficient / 10, d.exponent + 1⟩
    else d
  | 0, d => d

/-- The point of the grid with the place `place` that reads back: one of the two neighbours of
    `q`, the nearer one if both do. -/
def onGrid? (i : ReadsBack) (q : Rat) (place : Int) : Option Decimal :=
  let below : Decimal := ⟨(q / tenTo place).floor.toNat, place⟩
  let above : Decimal := ⟨below.coefficient + 1, place⟩
  match i.contains below.toRat, i.contains above.toRat with
  | true, true => some (if q - below.toRat < above.toRat - q then below else above)
  | true, false => some below
  | false, true => some above
  | false, false => none

/-- The first of the places, from `place` downwards and `count` of them, whose grid has a point
    that reads back. -/
def search (i : ReadsBack) (q : Rat) : Nat → Int → Option Decimal
  | 0, _ => none
  | count + 1, place => (onGrid? i q place).orElse fun _ => search i q count (place - 1)

/-- **Shortest digits** of the magnitude that the positive rational `n / d` rounds to. Seventeen
    digits always read back; the last alternative is never taken. -/
def shortest (n d : Nat) : Decimal :=
  let place := Number.lastPlace n d
  let m := Number.significand n d place
  let q := Number.dyadic m place
  let found := search (.ofSignificand m place) q 17 (firstPlace q.num.natAbs q.den)
  strip 17 (found.getD ⟨0, 0⟩)

/-- The digits of the coefficient. -/
def digits (d : Decimal) : String := Nat.repr d.coefficient

end Decimal

end StyleBook
