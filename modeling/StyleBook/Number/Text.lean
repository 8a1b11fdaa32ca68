import StyleBook.Number.Shortest

namespace StyleBook

/-!
# The text of a number

Two ways to write the shortest decimal of a number, as two records of one layout:

* `Number.plain` — as a value is written: never an exponent, no point behind an integer;
* `Number.debug` — as a value is shown to a developer: at least one digit behind the point, and
  an exponent for magnitudes below `10 ^ -4` or from `10 ^ 16` on;
* `Number.css` — `Number.plain`, except that both zeros are `0`.
-/

/-- How a decimal is laid out. -/
structure NumberLayout where
  /-- Whether an integer is followed by `.0`. -/
  pointAfterInteger : Bool
  /-- Whether a magnitude with this place of its first digit is written with an exponent. -/
  scientific : Int → Bool

namespace NumberLayout

/-- Positional for every magnitude. -/
def plain : NumberLayout := ⟨false, fun _ => false⟩

/-- Positional from `10 ^ -4` up to below `10 ^ 16`, and always with a point. -/
def debug : NumberLayout := ⟨true, fun place => place < -4 || 16 ≤ place⟩

/-- A text of `n` zeros. -/
def zeros (n : Nat) : String := String.ofList (List.replicate n '0')

/-- A decimal with the point at its place. -/
def positional (layout : NumberLayout) (d : Decimal) : String :=
  let digits := d.digits
  let point : Int := digits.length + d.exponent
  if 0 ≤ d.exponent then
    digits ++ zeros d.exponent.toNat ++ (if layout.pointAfterInteger then ".0" else "")
  else if 0 < point then
    let cs := digits.toList
    String.ofList (cs.take point.toNat) ++ "." ++ String.ofList (cs.drop point.toNat)
  else
    "0." ++ zeros (-point).toNat ++ digits

/-- A decimal with one digit before the point and an exponent. -/
def withExponent (d : Decimal) : String :=
  let cs := d.digits.toList
  let fraction := if cs.length ≤ 1 then "" else "." ++ String.ofList (cs.drop 1)
  String.ofList (cs.take 1) ++ fraction ++ "e" ++ Int.repr (d.exponent + cs.length - 1)

/-- The text of the positive rational `n / d`. -/
def magnitude (layout : NumberLayout) (n d : Nat) : String :=
  let decimal := Decimal.shortest n d
  if layout.scientific (decimal.exponent + decimal.digits.length - 1) then withExponent decimal
  else layout.positional decimal

/-- The text of zero. -/
def zero (layout : NumberLayout) : String := if layout.pointAfterInteger then "0.0" else "0"

/-- The text of a number. -/
def write (layout : NumberLayout) : Number → String
  | .finite q =>
    if q = 0 then layout.zero
    else if q < 0 then "-" ++ layout.magnitude q.num.natAbs q.den
    else layout.magnitude q.num.natAbs q.den
  | .negativeZero => "-" ++ layout.zero
  | .infinite negative => if negative then "-inf" else "inf"
  | .nan => "NaN"

end NumberLayout

namespace Number

/-- The number as a value writes it. -/
def plain (x : Number) : String := NumberLayout.plain.write x

/-- The number as it is shown to a developer. -/
def debug (x : Number) : String := NumberLayout.debug.write x

/-- The number in a declaration: there is no negative zero. -/
def css (x : Number) : String := if x.isZero then "0" else x.plain

end Number

end StyleBook
