namespace StyleBook

/-!
# Numbers

The numbers of style values: exact rationals, a negative zero, two infinities and a
not-a-number, with arithmetic that is exact in the rationals and rounded once to the nearest
number of 53 significant binary digits (ties to even, exponents from `-1074`).

* `Number` — the type; `Number.round` takes a rational to the nearest representable number;
* `Number.add`, `Number.scale` — a sum and a product with a rational, each rounded once;
* `Number.trunc`, `Number.fract`, `Number.nearest` — the integer part, what is left of it, and
  the nearest integer (a half goes away from zero); all three are exact;
* `Number.compare?` — the order, in which not-a-number has no place and both zeros are equal.
-/

/-- A number of a style value. -/
inductive Number
  /-- A finite number; zero is the positive zero. -/
  | finite (value : Rat)
  /-- The zero that is written with a minus sign. -/
  | negativeZero
  /-- An infinity of either sign. -/
  | infinite (negative : Bool)
  /-- Not a number. -/
  | nan
  deriving DecidableEq, Repr

namespace Number

instance : Inhabited Number := ⟨.finite 0⟩

instance (n : Nat) : OfNat Number n := ⟨.finite n⟩

/-! ### Rounding -/

/-- The natural number nearest to `n / d`; halfway, the even neighbour. -/
def divNearestEven (n d : Nat) : Nat :=
  if 2 * (n % d) < d then n / d
  else if d < 2 * (n % d) then n / d + 1
  else n / d + n / d % 2

/-- The place of the last binary digit kept of `n / d` (both positive): 52 places below the
    first digit, and never below `2 ^ -1074`. -/
def lastPlace (n d : Nat) : Int :=
  let guess : Int := n.log2 - d.log2
  let reached : Bool := d * Nat.pow 2 guess.toNat ≤ n * Nat.pow 2 (-guess).toNat
  max ((if reached then guess else guess - 1) - 52) (-1074)

/-- The significand of `n / d` when its last kept digit has the place `place`. -/
def significand (n d : Nat) (place : Int) : Nat :=
  divNearestEven (n * Nat.pow 2 (-place).toNat) (d * Nat.pow 2 place.toNat)

/-- The rational `m · 2 ^ place`. -/
def dyadic (m : Nat) (place : Int) : Rat :=
  mkRat (m * Nat.pow 2 place.toNat) (Nat.pow 2 (-place).toNat)

/-- The magnitude `n / d` rounded to 53 significant binary digits. -/
def roundMagnitude (n d : Nat) : Rat :=
  dyadic (significand n d (lastPlace n d)) (lastPlace n d)

/-- **Rounding.** The representable number nearest to a rational: ties go to the even
    significand, magnitudes that round to `2 ^ 1024` or more to an infinity, and negative
    rationals that round to zero to the negative zero. -/
def round (q : Rat) : Number :=
  if q = 0 then .finite 0
  else
    let magnitude := roundMagnitude q.num.natAbs q.den
    if (Nat.pow 2 1024 : Nat) ≤ magnitude then .infinite (q < 0)
    else if q < 0 then if magnitude = 0 then .negativeZero else .finite (-magnitude)
    else .finite magnitude

@[simp] theorem round_zero : round 0 = .finite 0 := rfl

/-! ### Sign and order -/

/-- The number with the opposite sign. -/
def neg : Number → Number
  | .finite q => if q = 0 then .negativeZero else .finite (-q)
  | .negativeZero => .finite 0
  | .infinite negative => .infinite !negative
  | .nan => .nan

/-- The number without its sign. -/
def abs : Number → Number
  | .finite q => .finite (if q < 0 then -q else q)
  | .negativeZero => .finite 0
  | .infinite _ => .infinite false
  | .nan => .nan

/-- The place of a number among the numbers: first the side of the infinities, then the
    rational; not-a-number has none. -/
def rank? : Number → Option (Int × Rat)
  | .finite q => some (0, q)
  | .negativeZero => some (0, 0)
  | .infinite true => some (-1, 0)
  | .infinite false => some (1, 0)
  | .nan => none

/-- The order of two numbers; `none` when one of them is not a number. -/
def compare? (x y : Number) : Option Ordering :=
  match x.rank?, y.rank? with
  | some (i, p), some (j, q) =>
    some (if i < j then .lt else if j < i then .gt
      else if p < q then .lt else if q < p then .gt else .eq)
  | _, _ => none

/-- Equal as numbers: both zeros are equal, and not-a-number differs from itself. -/
def same (x y : Number) : Bool := compare? x y == some .eq

/-- Strictly less. -/
def less (x y : Number) : Bool := compare? x y == some .lt

/-- Greater or equal; false when one of them is not a number. -/
def atLeast (x y : Number) : Bool := compare? x y == some .gt || compare? x y == some .eq

/-- Whether the number is one of the two zeros. -/
def isZero (x : Number) : Bool := x.same 0

/-! ### Arithmetic -/

/-- The sum, rounded once. Infinities of opposite sign have none, and a sum of zeros is negative
    only if both are. -/
def add : Number → Number → Number
  | .nan, _ | _, .nan => .nan
  | .infinite a, .infinite b => if a = b then .infinite a else .nan
  | .infinite a, _ | _, .infinite a => .infinite a
  | .negativeZero, .negativeZero => .negativeZero
  | .negativeZero, .finite q | .finite q, .negativeZero => round q
  | .finite p, .finite q => round (p + q)

/-- The product with a positive rational, rounded once. -/
def scale (k : Rat) : Number → Number
  | .finite q => round (k * q)
  | x => x

/-- The integer nearest to zero among the two neighbours of a rational. -/
def truncRat (q : Rat) : Int := Int.tdiv q.num q.den

/-- The integer nearest to a rational; a half goes away from zero. -/
def nearestRat (q : Rat) : Int :=
  let magnitude : Int := ((2 * q.num.natAbs + q.den) / (2 * q.den) : Nat)
  if q < 0 then -magnitude else magnitude

/-- An integer with the sign that a rounded negative number keeps. -/
def ofRounded (negative : Bool) (i : Int) : Number :=
  if i = 0 ∧ negative then .negativeZero else .finite i

/-- The part before the point. -/
def trunc : Number → Number
  | .finite q => ofRounded (q < 0) (truncRat q)
  | x => x

/-- What `trunc` leaves; infinities leave nothing that is a number. -/
def fract : Number → Number
  | .finite q => .finite (q - truncRat q)
  | .negativeZero => .finite 0
  | _ => .nan

/-- The nearest integer; a half goes away from zero. -/
def nearest : Number → Number
  | .finite q => ofRounded (q < 0) (nearestRat q)
  | x => x

/-- Whether nothing stands behind the point. -/
def isInteger (x : Number) : Bool := x.fract.isZero

end Number

end StyleBook
