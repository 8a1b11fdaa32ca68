import StyleBook.Toml.Scalar

namespace StyleBook.Toml

/-!
# Texts as they are written

A text is written between double quotes if it needs no escape there, and otherwise in the first
form that needs none: between single quotes, between double fences, between single fences. A text
for which there is no such form is written with escapes, between fences if it has several lines.

* `TextTraits` — what decides the form;
* `escapes` — the characters of a text with escapes;
* `written` — the text in its form.
-/

/-- The longest run of a character in a text. -/
def longestRun (c : Char) : List Char → Nat
  | [] => 0
  | head :: rest => max ((head :: rest).takeWhile (· == c)).length (longestRun c rest)

/-- What decides the form of a text. -/
structure TextTraits where
  /-- It has several lines. -/
  lines : Bool
  /-- It has a control code other than a tab and a line feed. -/
  controls : Bool
  /-- It has a backslash. -/
  backslash : Bool
  /-- The most double quotes in a row. -/
  doubleQuotes : Nat
  /-- The most single quotes in a row. -/
  singleQuotes : Nat
  deriving DecidableEq, Repr

/-- The traits of a text. -/
def TextTraits.of (cs : List Char) : TextTraits :=
  { lines := cs.contains '\n',
    controls := cs.any fun c => c ≠ '\n' && !isPlain c,
    backslash := cs.contains '\\',
    doubleQuotes := longestRun '"' cs,
    singleQuotes := longestRun '\'' cs }

/-- Four hexadecimal digits. -/
def fourDigits (n : Nat) : List Char :=
  let digits := (Nat.toDigits 16 n).map Char.toUpper
  List.replicate (4 - digits.length) '0' ++ digits

/-- One character between double quotes, or between double fences if `lines` is set. -/
def escape (lines : Bool) (c : Char) : List Char :=
  if c = '\\' then ['\\', '\\']
  else if c = '\t' then ['\\', 't']
  else if c = '\n' then if lines then ['\n'] else ['\\', 'n']
  else if c = '\x08' then ['\\', 'b']
  else if c = '\x0c' then ['\\', 'f']
  else if c = '\r' then ['\\', 'r']
  else if isPlain c then [c]
  else ['\\', 'u'] ++ fourDigits c.toNat

/-- Characters with escapes. A double quote is escaped behind `most` of them that are not
    escaped; `quotes` of them stand right in front. -/
def escapes (lines : Bool) (most : Nat) : Nat → List Char → List Char
  | _, [] => []
  | quotes, c :: rest =>
    if c = '"' then
      if quotes < most then '"' :: escapes lines most (quotes + 1) rest
      else '\\' :: '"' :: escapes lines most 0 rest
    else escape lines c ++ escapes lines most 0 rest

/-- A text between two marks, on lines of its own if it has several. -/
def enclosedIn (mark : String) (lines : Bool) (content : List Char) : String :=
  mark ++ (if lines then "\n" else "") ++ String.ofList content ++ mark

/-- **A text in its form.** -/
def written (s : String) : String :=
  let cs := s.toList
  let t := TextTraits.of cs
  let oneLine := enclosedIn "\"" false (escapes false 0 0 cs)
  let manyLines := enclosedIn "\"\"\"" t.lines (escapes true 2 0 cs)
  if !t.controls && !t.backslash && t.doubleQuotes = 0 && !t.lines then oneLine
  else if !t.controls && t.singleQuotes = 0 && !t.lines then enclosedIn "'" false cs
  else if !t.controls && !t.backslash && t.doubleQuotes ≤ 2 then manyLines
  else if !t.controls && t.singleQuotes ≤ 2 then enclosedIn "'''" t.lines cs
  else if t.lines then manyLines
  else oneLine

end StyleBook.Toml
