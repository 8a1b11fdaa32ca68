import StyleBook.Error

namespace StyleBook

/-!
# References to names

Values and selectors mention rules by their names, and those are given late. A `NameRef` points
at the place where the name will stand, and says in which form the name is written.

* `NameCell` — that place: a name fixed from the start, a place that an engine fills once, or
  one that nobody fills;
* `NameRef.render` — the text, which needs the name.
-/

/-- The names that the places of an engine hold. -/
abbrev Names := Nat → Option String

/-- The place of a name. Two places are the same only if they were made together: a token tells
    the places outside an engine apart, an engine counts its own. -/
inductive NameCell
  /-- A name that is known from the start. -/
  | fixed (token : Nat) (name : String)
  /-- A place that an engine fills when it processes the scope of a rule. -/
  | ofRule (id : Nat)
  /-- A place that stays empty. -/
  | empty (token : Nat)
  deriving DecidableEq, Repr

/-- The name in a place. -/
def NameCell.name? (names : Names) : NameCell → Option String
  | .fixed _ name => some name
  | .ofRule id => names id
  | .empty _ => none

/-- How a name is written inside a value or a selector. -/
inductive NameForm
  /-- The name itself. -/
  | bare
  /-- `var(--name)`. -/
  | var
  /-- `--name`. -/
  | customProperty
  /-- `.name`. -/
  | cls
  /-- `#name`. -/
  | id
  deriving DecidableEq, Repr

/-- The name in a form. -/
def NameForm.write (name : String) : NameForm → String
  | .bare => name
  | .var => "var(--" ++ name ++ ")"
  | .customProperty => "--" ++ name
  | .cls => "." ++ name
  | .id => "#" ++ name

/-- A mention of a rule's name. -/
structure NameRef where
  /-- The slot the rule was declared under. -/
  slot : String
  /-- Where the name stands. -/
  cell : NameCell
  /-- How it is written. -/
  form : NameForm
  deriving DecidableEq, Repr

namespace NameRef

/-- A mention of a name that needs no rule. -/
def ofName (token : Nat) (name : String) (form : NameForm) : NameRef :=
  ⟨name, .fixed token name, form⟩

/-- The same mention in another form. -/
def withForm (form : NameForm) (ref : NameRef) : NameRef := { ref with form }

/-- The name, if it has been given. -/
def name? (names : Names) (ref : NameRef) : Option String := ref.cell.name? names

/-- The text of the mention. -/
def render (names : Names) (ref : NameRef) : Except Error String :=
  match ref.name? names with
  | some name => .ok (ref.form.write name)
  | none => .error (.unassignedName ref.slot)

/-- Mentions of one place in one form; the slot does not count. -/
def same (a b : NameRef) : Bool := a.cell = b.cell && a.form = b.form

end NameRef

end StyleBook
