import StyleBook.Toml.Scalar

namespace StyleBook.Toml

/-!
# Configuration texts

The grammar of a whole text, and the table that it describes.

* `value` — a value, with arrays and tables between braces nested up to a limit;
* `Statement` — a header, or a key with its value, on a line;
* `Document` — the tables stated so far and the one that keys add to;
* `parse?` — the table of a text.
-/

/-! ### Keys and values -/

/-- How many keys a path may have, and how many arrays and tables may enclose a value. -/
def nestingLimit : Nat := 79

/-- A character of a key without quotes. -/
def isBare (c : Char) : Bool := c.isAlphanum || c = '_' || c = '-'

/-- A key, with or without quotes. -/
def key : Reader String :=
  Scalar.basic <|> Scalar.literal <|> String.ofList <$> Reader.takeWhile1 isBare

/-- The path of a list of keys. -/
def KeyPath.ofKeys? (keys : List String) : Option KeyPath := do
  return ⟨keys.dropLast, ← keys.getLast?⟩

/-- Keys with points between them. -/
def keyPath : Reader KeyPath := do
  let keys ← Reader.sepBy (blanks *> key <* blanks) (Reader.char '.')
  if nestingLimit < keys.length then failure
  else StateT.lift (KeyPath.ofKeys? keys)

/-- A key and the value that a reader finds for it. -/
def pair (item : Reader Value) : Reader (KeyPath × Value) := do
  let path ← keyPath
  discard (Reader.char '=')
  blanks
  return (path, ← item)

/-- An array between brackets, over any number of lines. A comma may follow the last item. -/
def array (item : Reader Value) : Reader Value := do
  discard (Reader.char '[')
  let items ← Reader.sepBy (filler *> item <* filler) (Reader.char ',')
  if !items.isEmpty then discard (Reader.optional (Reader.char ','))
  filler
  discard (Reader.char ']')
  return .array items

/-- A table between braces, on one line. -/
def braced (item : Reader Value) : Reader Value := do
  discard (Reader.char '\x7b')
  let pairs ← Reader.sepBy (pair item <* blanks) (Reader.char ',')
  blanks
  discard (Reader.char '\x7d')
  return .table .braced (← StateT.lift (Entries.ofPairs? pairs))

/-- A value that holds at most `depth` arrays and tables, one in the other. -/
def value : Nat → Reader Value
  | 0 => scalar
  | depth + 1 => scalar <|> array (value depth) <|> braced (value depth)

/-! ### Statements -/

/-- What a line says. -/
inductive Statement
  /-- The keys that follow belong to a table, one more of an array if `element` is set. -/
  | header (element : Bool) (path : KeyPath)
  /-- A key and its value. -/
  | entry (path : KeyPath) (value : Value)

/-- The header of one more table of an array. -/
def elementHeader : Reader Statement := do
  Reader.word "[["
  let path ← keyPath
  Reader.word "]]"
  lineEnd
  return .header true path

/-- The header of a table. -/
def tableHeader : Reader Statement := do
  discard (Reader.char '[')
  let path ← keyPath
  discard (Reader.char ']')
  lineEnd
  return .header false path

/-- A line with a key and its value. -/
def entry : Reader Statement := do
  let (path, value) ← pair (value nestingLimit)
  lineEnd
  return .entry path value

/-- A line that says something, or an empty one. -/
def line : Reader (Option Statement) := do
  blanks
  newline.as none
    <|> Reader.as (do comment; lineEnd) none
    <|> some <$> elementHeader
    <|> some <$> tableHeader
    <|> some <$> entry

/-- All statements of a text, which a byte order mark may precede. -/
def statements : Reader (List Statement) := do
  discard (Reader.optional (Reader.char '\ufeff'))
  let lines ← Reader.many line
  blanks
  return lines.filterMap id

/-! ### The table of a text -/

/-- What the statements up to a line describe. -/
structure Document where
  /-- The whole table. -/
  entries : Entries
  /-- The keys that lead to the table of the last header. -/
  current : List String

namespace Document

/-- What one more statement describes, unless it defines something twice. -/
def add (d : Document) : Statement → Option Document
  | .header element path => do
    return ⟨← Entries.open? element path d.entries, path.keys⟩
  | .entry path value => do
    return ⟨← Entries.within .implied (Entries.assign path value) d.current .stated d.entries,
      d.current⟩

end Document

/-- The table that a text describes, if it describes one. -/
def parse? (text : String) : Option Entries := do
  let statements ← Reader.all? statements text
  return (← statements.foldlM Document.add ⟨[], []⟩).entries

end StyleBook.Toml
