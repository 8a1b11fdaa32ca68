import StyleBook.Toml.Reader
import StyleBook.Toml.Value

namespace StyleBook.Toml

/-!
# Texts, numbers and moments

The values without parts, and the blanks and comments around them.

* `blanks`, `newline`, `comment`, `filler`, `lineEnd` — what stands between values;
* `Scalar.text` — the four forms of a text;
* `Scalar.integer`, `Scalar.float` — numbers;
* `Scalar.moment` — dates and times;
* `scalar` — any of them.
-/

/-! ### Between values -/

/-- A blank within a line. -/
def isBlankInLine (c : Char) : Bool := c = ' ' || c = '\t'

/-- A character that texts and comments may hold as it is: no control code but the tab. -/
def isPlain (c : Char) : Bool := c = '\t' || (' ' ≤ c && c ≠ '\x7f')

/-- Blanks within a line. -/
def blanks : Reader Unit := discard (Reader.takeWhile isBlankInLine)

/-- The end of a line, which a carriage return may precede. -/
def newline : Reader Unit :=
  discard (Reader.char '\n') <|> (do discard (Reader.char '\r'); discard (Reader.char '\n'))

/-- A comment, up to the end of its line. -/
def comment : Reader Unit := do
  discard (Reader.char '#')
  discard (Reader.takeWhile isPlain)

/-- Blanks, comments and ends of lines. -/
def filler : Reader Unit :=
  discard (Reader.many (discard (Reader.takeWhile1 isBlankInLine) <|> newline <|> comment))

/-- The rest of a line that has nothing more to say. -/
def lineEnd : Reader Unit := do
  blanks
  discard (Reader.optional comment)
  newline <|> Reader.eof

namespace Scalar

/-! ### Texts -/

/-- The value of a digit, in bases up to sixteen. -/
def digitValue (c : Char) : Nat :=
  if c.isDigit then c.toNat - '0'.toNat
  else if 'a' ≤ c then c.toNat - 'a'.toNat + 10
  else c.toNat - 'A'.toNat + 10

/-- Whether a character is a hexadecimal digit. -/
def isHexDigit (c : Char) : Bool :=
  c.isDigit || ('a' ≤ c && c ≤ 'f') || ('A' ≤ c && c ≤ 'F')

/-- The number that digits write. -/
def ofDigits (base : Nat) (digits : List Char) : Nat :=
  digits.foldl (fun n c => n * base + digitValue c) 0

/-- The character of a code point, which is no surrogate. -/
def codePoint (digits : Nat) : Reader Char := do
  let n := ofDigits 16 (← Reader.exactly isHexDigit digits)
  if n.isValidChar then return Char.ofNat n else failure

/-- What stands behind a backslash, as the character that is meant. -/
def escaped : Reader Char := do
  match ← Reader.oneOf ['b', 't', 'n', 'f', 'r', '"', '\\', 'u', 'U'] with
  | 'b' => return '\x08'
  | 't' => return '\t'
  | 'n' => return '\n'
  | 'f' => return '\x0c'
  | 'r' => return '\r'
  | 'u' => codePoint 4
  | 'U' => codePoint 8
  | c => return c

/-- A character that a text between double quotes holds as it is. -/
def isBasic (c : Char) : Bool := isPlain c && c ≠ '"' && c ≠ '\\'

/-- A character that a text between single quotes holds as it is. -/
def isLiteral (c : Char) : Bool := isPlain c && c ≠ '\''

/-- One line between double quotes, with escapes. -/
def basic : Reader String := do
  discard (Reader.char '"')
  let parts ← Reader.many
    (Reader.takeWhile1 isBasic <|> (do discard (Reader.char '\\'); return [← escaped]))
  discard (Reader.char '"')
  return String.ofList parts.flatten

/-- One line between single quotes, as it stands. -/
def literal : Reader String := do
  discard (Reader.char '\'')
  let content ← Reader.takeWhile isLiteral
  discard (Reader.char '\'')
  return String.ofList content

/-- Three quotes. -/
def fence (quote : Char) : Reader Unit :=
  discard (Reader.exactly (· == quote) 3)

/-- One or two quotes within a fenced text, where no fence starts. -/
def looseQuotes (quote : Char) : Reader (List Char) := do
  let quotes ← Reader.takeWhile1 (· == quote)
  if quotes.length < 3 then return quotes else failure

/-- The end of a fenced text: the fence, behind up to two quotes that belong to the text. -/
def closing (quote : Char) : Reader (List Char) :=
  Reader.exactly (· == quote) 2 <* fence quote
    <|> Reader.exactly (· == quote) 1 <* fence quote
    <|> (fence quote).as []

/-- A backslash at the end of a line, with all blanks and line ends behind it. -/
def lineContinuation : Reader (List Char) := do
  discard (Reader.char '\\')
  blanks
  newline
  discard (Reader.many (discard (Reader.takeWhile1 isBlankInLine) <|> newline))
  return []

/-- A text between fences, from parts of a form. A line end right behind the opening fence is
    not part of it, and each other one is a single line feed. -/
def fenced (quote : Char) (part : Reader (List Char)) : Reader String := do
  fence quote
  discard (Reader.optional newline)
  let parts ← Reader.many (part <|> newline.as ['\n'] <|> looseQuotes quote)
  let last ← closing quote
  return String.ofList (parts.flatten ++ last)

/-- Lines between double quotes, with escapes. -/
def fencedBasic : Reader String :=
  fenced '"'
    (Reader.takeWhile1 isBasic <|> lineContinuation
      <|> (do discard (Reader.char '\\'); return [← escaped]))

/-- Lines between single quotes, as they stand. -/
def fencedLiteral : Reader String := fenced '\'' (Reader.takeWhile1 isLiteral)

/-- A text in any of its forms. -/
def text : Reader String := fencedBasic <|> basic <|> fencedLiteral <|> literal

/-! ### Numbers -/

/-- Digits, with single underscores between them allowed. -/
def grouped (accepts : Char → Bool) : Reader (List Char) := do
  let first ← Reader.satisfying accepts
  let others ← Reader.many do
    discard (Reader.optional (Reader.char '_'))
    Reader.satisfying accepts
  return first :: others

/-- The digits of a whole number in base ten, which has no zero in front. -/
def wholeDigits : Reader (List Char) := do
  match ← Reader.satisfying Char.isDigit with
  | '0' => return ['0']
  | first =>
    let others ← Reader.many do
      discard (Reader.optional (Reader.char '_'))
      Reader.satisfying Char.isDigit
    return first :: others

/-- Whether a sign is there and is a minus. -/
def sign : Reader Bool := do
  return (← Reader.optional (Reader.oneOf ['+', '-'])) == some '-'

/-- Whether a whole number fits in 64 bits with its sign. -/
def fits (n : Int) : Bool := -(Nat.pow 2 63 : Nat) ≤ n && n < (Nat.pow 2 63 : Nat)

/-- A whole number in another base, behind the mark of the base. -/
def based (mark : String) (base : Nat) (accepts : Char → Bool) : Reader Int := do
  Reader.word mark
  return ofDigits base (← grouped accepts)

/-- A whole number in base ten. -/
def decimal : Reader Int := do
  let negative ← sign
  let n : Int := ofDigits 10 (← wholeDigits)
  return if negative then -n else n

/-- A whole number. -/
def integer : Reader Int := do
  let n ← based "0x" 16 isHexDigit
    <|> based "0o" 8 (fun c => '0' ≤ c && c ≤ '7')
    <|> based "0b" 2 (fun c => c = '0' || c = '1')
    <|> decimal
  if fits n then return n else failure

/-- The digits behind the point. -/
def fraction : Reader (List Char) := do
  discard (Reader.char '.')
  grouped Char.isDigit

/-- The exponent. -/
def exponent : Reader Int := do
  discard (Reader.oneOf ['e', 'E'])
  let negative ← sign
  let n : Int := ofDigits 10 (← grouped Char.isDigit)
  return if negative then -n else n

/-- Whether `digits · 10 ^ exponent` lies beyond all double precision numbers, that is, at or
    above the middle between the greatest and the power of two behind it. Far from that middle
    the number of places decides, which keeps the powers small. -/
def overflows (digits : List Char) (exponent : Int) : Bool :=
  let digits := digits.dropWhile (· == '0')
  let n := ofDigits 10 digits
  let places : Int := digits.length + exponent
  if n = 0 || places < 300 then false
  else if 320 < places then true
  else
    (Nat.pow 2 1024 - Nat.pow 2 970) * Nat.pow 10 (-exponent).toNat
      ≤ n * Nat.pow 10 exponent.toNat

/-- A number with a fraction, an exponent or both. One above all numbers is refused; one below
    all numbers is an infinity. -/
def finiteFloat : Reader Unit := do
  let negative ← sign
  let whole ← wholeDigits
  let (behind, scale) ←
    (do return ([], ← exponent))
      <|> (do
        let behind ← fraction
        return (behind, (← Reader.optional exponent).getD 0))
  if !negative && overflows (whole ++ behind) (scale - behind.length) then failure

/-- A number with a fraction or an exponent, an infinity, or no number. -/
def float : Reader Unit :=
  finiteFloat <|> (do discard sign; Reader.word "inf" <|> Reader.word "nan")

/-! ### Moments -/

/-- A number of exactly `places` digits between two bounds. -/
def between (places low high : Nat) : Reader Nat := do
  let n := ofDigits 10 (← Reader.exactly Char.isDigit places)
  if low ≤ n && n ≤ high then return n else failure

/-- The days of a month. -/
def daysIn (year month : Nat) : Nat :=
  if month = 2 then
    if year % 4 = 0 && (year % 100 ≠ 0 || year % 400 = 0) then 29 else 28
  else if month = 4 || month = 6 || month = 9 || month = 11 then 30 else 31

/-- A day of a year. -/
def date : Reader Unit := do
  let year ← between 4 0 9999
  discard (Reader.char '-')
  let month ← between 2 1 12
  discard (Reader.char '-')
  discard (between 2 1 (daysIn year month))

/-- Hours and minutes. -/
def clock : Reader Unit := do
  discard (between 2 0 23)
  discard (Reader.char ':')
  discard (between 2 0 59)

/-- A time of day. A minute may have a leap second. -/
def time : Reader Unit := do
  clock
  discard (Reader.char ':')
  discard (between 2 0 60)
  discard (Reader.optional (do discard (Reader.char '.'); Reader.takeWhile1 Char.isDigit))

/-- How far a time is from the universal one. -/
def offset : Reader Unit :=
  discard (Reader.oneOf ['Z', 'z']) <|> (do discard (Reader.oneOf ['+', '-']); clock)

/-- A date, a date with a time, or a time. -/
def moment : Reader Unit :=
  (do
    date
    discard (Reader.optional do
      discard (Reader.oneOf ['T', 't', ' '])
      time
      discard (Reader.optional offset)))
  <|> time

end Scalar

/-- A value without parts. -/
def scalar : Reader Value :=
  .text <$> Scalar.text
    <|> Scalar.moment.as .moment
    <|> Scalar.float.as .float
    <|> .integer <$> Scalar.integer
    <|> (Reader.word "true").as (.boolean true)
    <|> (Reader.word "false").as (.boolean false)

end StyleBook.Toml
