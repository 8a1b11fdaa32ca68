import StyleBook.Text.Unseen
import StyleBook.Value.Basic

namespace StyleBook

/-!
# Values for developers

The structure of a value, as text.

* `debugText` — a text between quotes, with everything that cannot be seen written out;
* `Value.debug` — a value with the names of its kind and parts.
-/

/-- The hexadecimal digits of a number, as few as possible. -/
def hexText (n : Nat) : String := String.ofList (Nat.toDigits 16 n)

/-- A character inside quotes. -/
def debugChar (c : Char) : String :=
  match c with
  | '\x00' => "\\0"
  | '\t' => "\\t"
  | '\r' => "\\r"
  | '\n' => "\\n"
  | '"' => "\\\""
  | '\\' => "\\\\"
  | c => if isUnseen c then "\\u\x7b" ++ hexText c.toNat ++ "\x7d" else String.singleton c

/-- A text between quotes. -/
def debugText (s : String) : String := "\"" ++ String.join (s.toList.map debugChar) ++ "\""

/-- A flag as a word. -/
def debugBool (b : Bool) : String := if b then "true" else "false"

/-- The name of a form. -/
def NameForm.debug : NameForm → String
  | .bare => "Bare"
  | .var => "Var"
  | .customProperty => "CustomProperty"
  | .cls => "Class"
  | .id => "Id"

namespace Value

mutual

/-- The structure of a value. Of a mention of a rule it gives the slot and the form. -/
def debug : Value → String
  | .null => "Null"
  | .bool b => "Bool(" ++ debugBool b ++ ")"
  | .number x => "Number(" ++ x.debug ++ ")"
  | .text s => "String(" ++ debugText s ++ ")"
  | .list items => "List([" ++ debugItems items ++ "])"
  | .record fields => "Record(Record \x7b fields: [" ++ debugFields fields ++ "] \x7d)"
  | .call function args repeating =>
    "Func(FuncCall \x7b name: " ++ debugText function ++ ", args: " ++ debug args ++ ", repeating: "
      ++ debugBool repeating ++ " \x7d)"
  | .ref name =>
    "Ref(NameRef \x7b slot: " ++ debugText name.slot ++ ", form: " ++ name.form.debug ++ " \x7d)"
  | .lazy _ | .math .. => "LazyValue(..)"
  | .custom _ => "Custom(..)"

/-- The structures of items, with commas. -/
def debugItems : List Value → String
  | [] => ""
  | [v] => debug v
  | v :: w :: rest => debug v ++ ", " ++ debugItems (w :: rest)

/-- The structures of fields, with commas. -/
def debugFields : List (String × Value) → String
  | [] => ""
  | [(name, v)] => "(" ++ debugText name ++ ", " ++ debug v ++ ")"
  | (name, v) :: entry :: rest =>
    "(" ++ debugText name ++ ", " ++ debug v ++ "), " ++ debugFields (entry :: rest)

end

end Value

end StyleBook
