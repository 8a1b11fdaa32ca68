import StyleBook.Rule.Basic

namespace StyleBook

/-!
# Definitions

A definition declares the rules of a scope, one step after the other. What it does next may
depend on the answers to earlier steps, and on a memory that all definitions of a program share.

* `Script` — what is declared: a finite tree of steps, branching on answers;
* `Definition` — a script with the name of its scope;
* `Library` — the definitions that scripts can extend and use.
-/

/-- Handles to the named rules of a scope. -/
structure ScopeRefs where
  /-- The scope. -/
  scope : ScopeId
  /-- Its name. -/
  name : String
  /-- The handles by slot, in order of declaration. -/
  rules : List (String × RuleRef)

namespace ScopeRefs

/-- The handle of a slot. -/
def get? (slot : String) (refs : ScopeRefs) : Option RuleRef := Dict.get? slot refs.rules

/-- The handle of a slot; it is an error to have none. -/
def require (slot : String) (refs : ScopeRefs) : Except Error RuleRef :=
  match refs.get? slot with
  | some rule => .ok rule
  | none => .error (.definitionConstruction refs.name ("no rule declared under '" ++ slot ++ "'"))

end ScopeRefs

/-- What a definition declares, with a memory of type `μ`. -/
inductive Script (μ : Type)
  /-- Everything is declared. -/
  | done
  /-- Stop with an error. -/
  | fail (e : Error)
  /-- Declare a rule under a slot. -/
  | add (slot : String) (rule : Rule) (next : RuleRef → Script μ)
  /-- Declare a rule without a slot. -/
  | addUnnamed (rule : Rule) (next : RuleRef → Script μ)
  /-- Find the rule of a slot of this scope. -/
  | find (slot : String) (next : Option RuleRef → Script μ)
  /-- Ask for the id of this scope. -/
  | scope (next : ScopeId → Script μ)
  /-- Declare all that another definition declares, and take over its names. -/
  | extend (definition : Nat) (next : Except Error ScopeId → Script μ)
  /-- Use the rules of another definition. -/
  | use (definition : Nat) (next : Except Error ScopeRefs → Script μ)
  /-- Declare a group of rules under a condition. -/
  | group (condition : GroupCondition) (body : Script μ) (next : Except Error RuleRef → Script μ)
  /-- Ask for the name in a place. -/
  | nameOf (cell : NameCell) (next : Option String → Script μ)
  /-- Report something. -/
  | report (event : Event) (next : Script μ)
  /-- Look at the memory. -/
  | look (next : μ → Script μ)
  /-- Change the memory. -/
  | remember (change : μ → μ) (next : Script μ)

instance {μ : Type} : Inhabited (Script μ) := ⟨.done⟩

/-- A definition. -/
structure Definition (μ : Type) where
  /-- Tells definitions apart. -/
  key : Nat
  /-- What messages call the definition. -/
  title : String
  /-- What its scope is called. -/
  scopeName : String
  /-- Whether it gets a new scope every time. -/
  multiplex : Bool
  /-- What it declares. -/
  script : Script μ

/-- The definition of every key. -/
abbrev Library (μ : Type) := Nat → Definition μ

end StyleBook
