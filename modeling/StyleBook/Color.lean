import StyleBook.Number.Text

namespace StyleBook

/-!
# Colour numbers

A colour is a number: `0xRRGGBB`, negative for the inverted colour, and with a fraction for its
opacity.

* `Color.text` — `#rrggbb`, or `#rrggbbaa` if there is a fraction;
* `Color.channel` — one channel of a colour function;
* `Color.normalizeAlpha` — an opacity as a fraction, where `0` stands for full opacity;
* `Color.withAlpha` — a colour number with another opacity.
-/

namespace Color

/-- One hexadecimal digit. -/
def hexDigit (n : Nat) : Char :=
  if n < 10 then Char.ofNat ('0'.toNat + n) else Char.ofNat ('a'.toNat + (n - 10))

/-- The last `places` hexadecimal digits of a number. -/
def hexDigits : Nat → Nat → List Char
  | 0, _ => []
  | places + 1, n => hexDigits places (n / 16) ++ [hexDigit (n % 16)]

/-- The integer part of a magnitude as a word of 64 bits keeps it: at most `2 ^ 63 - 1`, and `0`
    for what is no number. -/
def integerPart : Number → Nat
  | .finite q => min (Number.truncRat q).toNat (Nat.pow 2 63 - 1)
  | .infinite _ => Nat.pow 2 63 - 1
  | _ => 0

/-- The red, green and blue of a colour number, as one number below `2 ^ 24`. A negative number
    has the complement of what its magnitude has. -/
def rgb (x : Number) : Nat :=
  let part := integerPart x.abs % Nat.pow 2 24
  if x.less 0 then Nat.pow 2 24 - 1 - part else part

/-- The opacity of a colour number in steps of 1/255, if it has a fraction. -/
def alphaByte? (x : Number) : Option Nat :=
  let fraction := x.abs.fract
  if Number.less 0 fraction then some (integerPart (fraction.scale 255).nearest) else none

/-- The text of a colour number. -/
def text (x : Number) : String :=
  String.ofList ('#' :: hexDigits 6 (rgb x) ++ ((alphaByte? x).map (hexDigits 2)).getD [])

/-- One channel: zero and magnitudes from one on are plain, fractions are percentages. -/
def channel (x : Number) : String :=
  let magnitude := x.abs
  if magnitude.isZero || magnitude.atLeast 1 then magnitude.css
  else (magnitude.scale 100).nearest.plain ++ "%"

/-- An opacity as a fraction. One, and a hundred or more, are full opacity, which is `0`;
    between them an opacity is a percentage. -/
def normalizeAlpha (a : Number) : Number :=
  let a := a.abs
  if a.same 1 || a.atLeast 100 then 0
  else if Number.less 1 a then a.scale (mkRat 1 100)
  else a

/-- A colour number with an opacity in place of its fraction. The sign, and so the inversion,
    stays. -/
def withAlpha (color a : Number) : Number :=
  let magnitude := color.abs.trunc.add (normalizeAlpha a)
  if color.less 0 then magnitude.neg else magnitude

/-- The opacity of a colour function: empty for full opacity. -/
def alphaText (a : Number) : String :=
  let a := normalizeAlpha a
  if a.isZero then "" else a.css

end Color

end StyleBook
