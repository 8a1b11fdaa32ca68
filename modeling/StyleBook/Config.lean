import StyleBook.Error
import StyleBook.Name.Naming
import StyleBook.Toml.Document
import StyleBook.Toml.Written

namespace StyleBook

/-!
# The configuration of an engine

The settings of an engine, and their text.

* `Config.ofToml` — the settings of a text; what it leaves out is standard, what it names without
  need is passed over;
* `Config.ofBytes` — the settings of a file;
* `Config.toToml` — the text of settings.
-/

/-- The settings of an engine. -/
structure Config where
  /-- How names are given. -/
  naming : NamingConfig := {}
  deriving DecidableEq, Repr

namespace NamingMode

/-- The word for a mode. -/
def word : NamingMode → String
  | .readable => "readable"
  | .optimized => "optimized"

/-- The mode that a word stands for. -/
def ofWord? : String → Option NamingMode
  | "readable" => some .readable
  | "optimized" => some .optimized
  | _ => none

/-- A word stands for the mode that it is written for. -/
@[simp] theorem ofWord?_word (mode : NamingMode) : ofWord? mode.word = some mode := by
  cases mode <;> rfl

end NamingMode

namespace Toml.Value

/-- Whether a value is an array or a table that holds nothing. -/
def isEmpty : Value → Bool
  | .array [] | .table _ [] | .tables [] => true
  | _ => false

/-- The mode that a value stands for: its word, or a table that holds nothing under its word. -/
def mode? : Value → Option NamingMode
  | .text word => NamingMode.ofWord? word
  | .table _ [(word, content)] => if content.isEmpty then NamingMode.ofWord? word else none
  | _ => none

/-- The text that a value is. -/
def text? : Value → Option String
  | .text content => some content
  | _ => none

/-- The number from zero on that a value is. -/
def natural? : Value → Option Nat
  | .integer n => if 0 ≤ n then some n.toNat else none
  | _ => none

end Toml.Value

namespace NamingConfig

/-- The settings of three values. A value that is missing leaves its setting as it is. -/
def ofValues? (mode lead firstId : Option Toml.Value) : Option NamingConfig := do
  let standard : NamingConfig := {}
  return {
    mode := ← mode.elim (some standard.mode) Toml.Value.mode?,
    lead := ← lead.elim (some standard.lead) Toml.Value.text?,
    firstId := ← firstId.elim (some standard.firstId) Toml.Value.natural? }

/-- The settings of a value: a table by its keys, an array by its places, and a moment, which has
    neither, the standard. -/
def ofValue? : Toml.Value → Option NamingConfig
  | .table _ entries =>
    let entries : Toml.Entries := entries
    ofValues? (entries.get? "mode") (entries.get? "prefix") (entries.get? "first_id")
  | .array items => ofValues? items[0]? items[1]? items[2]?
  | .tables each =>
    let items := each.map (Toml.Value.table .stated)
    ofValues? items[0]? items[1]? items[2]?
  | .moment => some {}
  | _ => none

end NamingConfig

namespace Config

/-- The settings of a table. -/
def ofEntries? (entries : Toml.Entries) : Option Config :=
  match entries.get? "naming" with
  | none => some {}
  | some value => Config.mk <$> NamingConfig.ofValue? value

/-- **The settings of a text.** -/
def ofToml (text : String) : Except Error Config :=
  match Toml.parse? text with
  | none => .error (.configuration "TOML text expected")
  | some entries =>
    match ofEntries? entries with
    | none => .error (.configuration "value of another kind expected")
    | some config => .ok config

/-- The settings of a file, if it can be read. -/
def ofBytes (path : String) : Option ByteArray → Except Error Config
  | none => .error (.unreadable path "no such file")
  | some bytes =>
    match String.fromUTF8? bytes with
    | none => .error (.unreadable path "the file is not valid UTF-8")
    | some text => ofToml text

/-- The greatest number that the text of settings can hold. -/
def greatestId : Nat := Nat.pow 2 63 - 1

/-- **The text of settings.** -/
def toToml (config : Config) : Except Error String :=
  let naming := config.naming
  if greatestId < naming.firstId then .error (.configuration "number out of range")
  else .ok ("[naming]\n"
    ++ "mode = " ++ Toml.written naming.mode.word ++ "\n"
    ++ "prefix = " ++ Toml.written naming.lead ++ "\n"
    ++ "first_id = " ++ Nat.repr naming.firstId ++ "\n")

end Config

end StyleBook
