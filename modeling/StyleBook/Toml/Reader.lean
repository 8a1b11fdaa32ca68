namespace StyleBook.Toml

/-!
# Readers

A reader takes what it recognises off the front of a text, or refuses.

* `Reader.satisfying`, `Reader.word`, `Reader.takeWhile` — characters, a
  fixed word, a run of a class;
* `Reader.optional`, `Reader.many`, `Reader.sepBy` — a part that may be missing or repeated;
* `Reader.all?` — the whole text.

A choice goes back to where it started when an alternative refuses. A repetition ends where its
item refuses or takes nothing, so it ends on every text.
-/

/-- What is recognised at the front of a text, with the rest of the text. -/
abbrev Reader (α : Type) := StateT (List Char) Option α

namespace Reader

variable {α β : Type}

/-- One character of a class. -/
def satisfying (accepts : Char → Bool) : Reader Char
  | [] => none
  | c :: rest => if accepts c then some (c, rest) else none

/-- One given character. -/
def char (c : Char) : Reader Char := satisfying (· == c)

/-- One character of a few. -/
def oneOf (cs : List Char) : Reader Char := satisfying (cs.contains ·)

/-- The characters of a word, in order. -/
def word (s : String) : Reader Unit := s.toList.forM fun c => discard (char c)

/-- The longest run of a class, which may be empty. -/
def takeWhile (accepts : Char → Bool) : Reader (List Char) := fun cs =>
  some (cs.takeWhile accepts, cs.dropWhile accepts)

/-- The longest run of a class, at least one character. -/
def takeWhile1 (accepts : Char → Bool) : Reader (List Char) := do
  let first ← satisfying accepts
  return first :: (← takeWhile accepts)

/-- Exactly `n` characters of a class. -/
def exactly (accepts : Char → Bool) : Nat → Reader (List Char)
  | 0 => pure []
  | n + 1 => do
    let first ← satisfying accepts
    return first :: (← exactly accepts n)

/-- A part that stands for one given value. -/
def as (item : Reader β) (meaning : α) : Reader α := Functor.mapConst meaning item

/-- A part that may be missing. -/
def optional (item : Reader α) : Reader (Option α) := (some <$> item) <|> pure none

/-- The end of the text. -/
def eof : Reader Unit
  | [] => some ((), [])
  | _ :: _ => none

/-- The items that stand at the front of a text, with the rest of it. -/
def manyFrom (item : Reader α) (cs : List Char) : List α × List Char :=
  match item cs with
  | none => ([], cs)
  | some (first, rest) =>
    if rest.length < cs.length then
      let (others, last) := manyFrom item rest
      (first :: others, last)
    else ([], cs)
termination_by cs.length

/-- As many items as stand there. -/
def many (item : Reader α) : Reader (List α) := fun cs => some (manyFrom item cs)

/-- Items with a separator between each two. -/
def sepBy (item : Reader α) (separator : Reader β) : Reader (List α) := do
  match ← optional item with
  | none => return []
  | some first => return first :: (← many (separator *> item))

/-- What a reader recognises a whole text as. -/
def all? (item : Reader α) (s : String) : Option α :=
  ((item <* eof).run s.toList).map Prod.fst

@[simp] theorem char_cons_self (c : Char) (rest : List Char) :
    char c (c :: rest) = some (c, rest) := by
  simp [char, satisfying]

@[simp] theorem eof_nil : eof [] = some ((), []) := rfl

end Reader

end StyleBook.Toml
