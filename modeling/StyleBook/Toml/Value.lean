import StyleBook.Dict

namespace StyleBook.Toml

/-!
# The values of a configuration text

A value, and the rules by which keys and headers add to a table:

* `Value` — the kinds of value; a table remembers its `Origin`, which decides who may add to it;
* `Entries.within` — a change of the table that a path of keys leads to;
* `Entries.assign` — a dotted key and its value;
* `Entries.open?` — a header, which states a table once or adds one to an array of tables.

Each of them refuses what would define a key or a table twice.
-/

/-- How a table came to be. -/
inductive Origin
  /-- It is the whole text, or a header states it. -/
  | stated
  /-- It stands on the way to a table that a header states. -/
  | implied
  /-- It stands on the way to a dotted key. -/
  | dotted
  /-- It is written between braces, and complete. -/
  | braced
  deriving DecidableEq, Repr

/-- A value. No setting is a fraction or a moment, so of those only the kind is kept. -/
inductive Value
  /-- A text. -/
  | text (content : String)
  /-- A whole number. -/
  | integer (value : Int)
  /-- A number with a fraction or an exponent, an infinity, or no number. -/
  | float
  /-- A truth value. -/
  | boolean (value : Bool)
  /-- A date, a time of day, or both. -/
  | moment
  /-- An array between brackets, which is complete. -/
  | array (items : List Value)
  /-- A table. -/
  | table (origin : Origin) (entries : List (String × Value))
  /-- An array of tables, one for each of its headers. -/
  | tables (each : List (List (String × Value)))

/-- The entries of a table. -/
abbrev Entries := Dict String Value

/-- A key behind the keys of the tables on the way to it. -/
structure KeyPath where
  /-- The tables on the way, outermost first. -/
  way : List String
  /-- The last key. -/
  key : String
  deriving DecidableEq, Repr

/-- All keys of a path. -/
def KeyPath.keys (p : KeyPath) : List String := p.way ++ [p.key]

namespace Entries

/-- A change of the table that a path leads to from a table. A table that is missing on the way
    is made, with the origin `made`. A dotted key does not enter a table that a header states,
    nothing enters one between braces, and an array of tables is entered at its last. -/
def within (made : Origin) (change : Origin → Entries → Option Entries) :
    List String → Origin → Entries → Option Entries
  | [], origin, entries => change origin entries
  | key :: path, _, entries =>
    match entries.get? key with
    | none => do
      return entries.insert key (.table made (← within made change path made []))
    | some (.table origin inner) =>
      if origin = .braced || (made = .dotted && origin = .stated) then none
      else do return entries.insert key (.table origin (← within made change path origin inner))
    | some (.tables each) => do
      let last ← each.getLast?
      return entries.insert key
        (.tables (each.dropLast ++ [← within made change path .stated last]))
    | some _ => none

/-- A value for the last key of a path, in the table that the keys before it lead to. Only
    dotted keys add to a table that dotted keys made, and they add to no other. -/
def assign (path : KeyPath) (value : Value) : Origin → Entries → Option Entries :=
  within .dotted
    (fun origin entries =>
      if (origin = .dotted) = path.way.isEmpty || entries.contains path.key then none
      else some (entries.insert path.key value))
    path.way

/-- The table of a header. A table on the way to another header may still be stated, once. -/
def openTable (key : String) (entries : Entries) : Option Entries :=
  match entries.get? key with
  | none => some (entries.insert key (.table .stated []))
  | some (.table .implied inner) => some (entries.insert key (.table .stated inner))
  | some _ => none

/-- One more table of an array of tables. -/
def openElement (key : String) (entries : Entries) : Option Entries :=
  match entries.get? key with
  | none => some (entries.insert key (.tables [[]]))
  | some (.tables each) => some (entries.insert key (.tables (each ++ [[]])))
  | some _ => none

/-- A header, of one more table of an array if `element` is set. -/
def open? (element : Bool) (path : KeyPath) : Entries → Option Entries :=
  within .implied
    (fun _ => if element then openElement path.key else openTable path.key)
    path.way .stated

/-- The entries of a table between braces. -/
def ofPairs? (pairs : List (KeyPath × Value)) : Option Entries :=
  pairs.foldlM (fun entries (path, value) => assign path value .braced entries) []

end Entries

end StyleBook.Toml
