import StyleBook.Name.Ref
import StyleBook.NumericFamily

namespace StyleBook

/-!
# Style values

What a property, a function argument or a custom property is given.

* `Value` — the values; `Value.kind` names their kinds in messages;
* `TextSource` — a text that is computed anew each time it is asked for;
* `Value.same` — equality: fields in order, numbers as numbers, computed texts and names only if
  they were made together;
* `Value.weight` — the size of a value without its texts, which every part of it falls short of.
-/

/-- A text computed on demand: `text k` is the answer to the question after `k` earlier ones.
    Sources are the same only if they have the same id. -/
structure TextSource where
  /-- Tells sources apart. -/
  id : Nat
  /-- The answer to each question, counted from zero. -/
  text : Nat → String

/-- The functions that compute with numbers. -/
inductive MathFunction
  | min
  | max
  | clamp
  /-- An expression with numbered places for its operands. -/
  | calc (template : String)
  deriving DecidableEq, Repr

/-- A style value. -/
inductive Value
  /-- No value. -/
  | null
  /-- A flag. -/
  | bool (b : Bool)
  /-- A number; its unit depends on where it stands. -/
  | number (x : Number)
  /-- Finished text. -/
  | text (s : String)
  /-- Several values, or one value of several parts. -/
  | list (items : List Value)
  /-- Named fields, each name once, in order. -/
  | record (fields : List (String × Value))
  /-- A call of a function that a catalog describes, or of its `repeating-` variant. -/
  | call (function : String) (args : Value) (repeating : Bool)
  /-- The name of a rule. -/
  | ref (name : NameRef)
  /-- A text computed on demand. -/
  | lazy (source : TextSource)
  /-- A math function, computed on demand from operands of a numeric family. -/
  | math (id : Nat) (function : MathFunction) (family : NumericFamily) (operands : List Value)
  /-- A value that computes its own text. -/
  | custom (source : TextSource)

instance : Inhabited Value := ⟨.null⟩

namespace Value

/-- The name of a value's kind, as messages spell it. -/
def kind : Value → String
  | .null => "null"
  | .bool _ => "boolean"
  | .number _ => "number"
  | .text _ => "string"
  | .list _ => "list"
  | .record _ => "record"
  | .call .. => "function"
  | .ref _ => "rule reference"
  | .lazy _ | .math .. => "lazy"
  | .custom _ => "custom"

/-- Whether there is no value. -/
def isNull : Value → Bool
  | .null => true
  | _ => false

/-- Whether the value is a list. -/
def isList : Value → Bool
  | .list _ => true
  | _ => false

/-- Whether the value is a list or a record: one of several values, where several are allowed. -/
def isCompound : Value → Bool
  | .list _ | .record _ => true
  | _ => false

/-- Whether the value is a list with a compound value in it. -/
def hasCompound : Value → Bool
  | .list items => items.any isCompound
  | _ => false

/-- Whether the value is a list that starts with a list. -/
def startsWithList : Value → Bool
  | .list (.list _ :: _) => true
  | _ => false

/-- The number, if the value is one. -/
def number? : Value → Option Number
  | .number x => some x
  | _ => none

/-- The text, if the value is one. -/
def text? : Value → Option String
  | .text s => some s
  | _ => none

/-! ### Equality -/

mutual

/-- Equality of values. -/
def same : Value → Value → Bool
  | .null, .null => true
  | .bool a, .bool b => a == b
  | .number a, .number b => a.same b
  | .text a, .text b => a == b
  | .list as, .list bs => sameItems as bs
  | .record as, .record bs => sameFields as bs
  | .call f a r, .call g b s => f == g && same a b && r == s
  | .ref a, .ref b => a.same b
  | .lazy a, .lazy b => a.id == b.id
  | .math a _ _ _, .math b _ _ _ => a == b
  | .custom a, .custom b => a.id == b.id
  | _, _ => false

/-- Equality item by item. -/
def sameItems : List Value → List Value → Bool
  | [], [] => true
  | a :: as, b :: bs => same a b && sameItems as bs
  | _, _ => false

/-- Equality field by field, in order. -/
def sameFields : List (String × Value) → List (String × Value) → Bool
  | [], [] => true
  | (m, a) :: as, (n, b) :: bs => m == n && same a b && sameFields as bs
  | _, _ => false

end

/-! ### Weight -/

mutual

/-- The size of a value; texts weigh nothing. -/
def weight : Value → Nat
  | .list items => 1 + itemsWeight items
  | .record fields => 2 + fieldsWeight fields
  | .call _ args _ => 2 + weight args
  | .math _ _ _ operands => 1 + itemsWeight operands
  | _ => 1

/-- The size of the items of a list. -/
def itemsWeight : List Value → Nat
  | [] => 0
  | v :: rest => 1 + weight v + itemsWeight rest

/-- The size of the fields of a record. -/
def fieldsWeight : List (String × Value) → Nat
  | [] => 0
  | (_, v) :: rest => 1 + weight v + fieldsWeight rest

end

/-- A field weighs less than the fields it is among. -/
theorem weight_lt_of_get? {fields : List (String × Value)} {name : String} {v : Value}
    (h : Dict.get? name fields = some v) : v.weight < fieldsWeight fields := by
  induction fields with
  | nil => simp at h
  | cons entry rest ih =>
    obtain ⟨n, w⟩ := entry
    simp only [Dict.get?] at h
    simp only [fieldsWeight]
    split at h
    · simp only [Option.some.injEq] at h
      subst h
      omega
    · have := ih h
      omega

/-- Leaving fields out makes a record no heavier. -/
theorem fieldsWeight_filter_le (p : String × Value → Bool) (fields : List (String × Value)) :
    fieldsWeight (fields.filter p) ≤ fieldsWeight fields := by
  induction fields with
  | nil => simp
  | cons entry rest ih =>
    obtain ⟨n, w⟩ := entry
    by_cases hp : p (n, w)
    · simp only [List.filter_cons, hp, if_true, fieldsWeight]
      omega
    · simp only [List.filter_cons, hp, Bool.false_eq_true, if_false, fieldsWeight]
      omega

/-- Items under names weigh no more than without. -/
theorem fieldsWeight_zip_le (names : List String) (items : List Value) :
    fieldsWeight (names.zip items) ≤ itemsWeight items := by
  induction names generalizing items with
  | nil => simp [fieldsWeight]
  | cons n names ih =>
    cases items with
    | nil => simp [fieldsWeight]
    | cons v items =>
      have := ih items
      simp only [List.zip_cons_cons, fieldsWeight, itemsWeight]
      omega

end Value

end StyleBook
