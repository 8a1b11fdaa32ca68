import StyleBook.Name.Naming
import StyleBook.Rule.Basic

namespace StyleBook

/-!
# Scopes and the engine

An engine owns scopes. A scope holds the rules of one run of a definition, or of one group
inside it.

* `Scope` — rules by place, slot and kind, the names of slots, and the links to other scopes: to
  the scope it extends, the scope it is nested in, the scopes nested in it, and the scopes it
  uses;
* `Engine` — the scopes, the state of naming, the definitions that have a scope of their own,
  those that are declaring, and what conversions need;
* `EngineM` — computations of an engine that may fail; a failure keeps the state.
-/

/-- Where a scope stands. -/
inductive ScopeState
  /-- Rules are being declared. -/
  | unprocessed
  /-- Names are given and stylesets merged. -/
  | processed
  /-- The text is in a sink. -/
  | inserted
  /-- The text was taken out of the sink. -/
  | cleared
  deriving DecidableEq, Repr

/-- The name of a state, as reports spell it. -/
def ScopeState.name : ScopeState → String
  | .unprocessed => "Unprocessed"
  | .processed => "Processed"
  | .inserted => "Inserted"
  | .cleared => "Cleared"

/-- The rules of one run of a definition, or of a group. -/
structure Scope where
  /-- What readable names start with. -/
  name : String
  /-- The title of the definition. -/
  definition : String
  /-- Where the scope stands. -/
  state : ScopeState := .unprocessed
  /-- Whether the definition gets a new scope every time. -/
  multiplex : Bool
  /-- The rules; the key of a rule is its place. -/
  rules : List Rule := []
  /-- The keys of rules, in order of declaration. -/
  order : List Nat := []
  /-- The keys of rules with a slot, in order of first declaration. -/
  named : Dict String Nat := []
  /-- The keys of rules without a slot, in order. -/
  unnamed : List Nat := []
  /-- The keys by kind, in order; filled when the scope is processed. -/
  byKind : Dict RuleKind (List Nat) := []
  /-- The names of slots. -/
  names : Dict String String := []
  /-- The scope whose names this one takes over. -/
  base : Option ScopeId := none
  /-- The scope this one is nested in. -/
  owner : Option ScopeId := none
  /-- The scopes nested in this one. -/
  children : List ScopeId := []
  /-- The scopes that are activated before this one. -/
  references : List ScopeId := []
  /-- How many users the scope has. A machine counts them in a word; no run has so many calls that
      the word is full, so the number is not bounded here. -/
  users : Nat := 0

namespace Scope

/-- The keys that rules have. -/
def keys (s : Scope) : List Nat := List.range s.rules.length

/-- The rule at a key. -/
def rule? (key : Nat) (s : Scope) : Option Rule := s.rules[key]?

/-- The rule of a slot. -/
def ruleOf? (slot : String) (s : Scope) : Option Rule := (s.named.get? slot).bind s.rule?

/-- The name of a slot. -/
def nameOf? (slot : String) (s : Scope) : Option String := s.names.get? slot

/-- Rules with their slots. -/
def namedRules (s : Scope) : List (String × Rule) :=
  s.named.filterMap fun (slot, key) => (s.rule? key).map (slot, ·)

/-- Rules without a slot. -/
def unnamedRules (s : Scope) : List Rule := s.unnamed.filterMap s.rule?

/-- Rules of one kind; none before the scope is processed. -/
def rulesOfKind (kind : RuleKind) (s : Scope) : List Rule :=
  ((s.byKind.get? kind).getD []).filterMap s.rule?

/-- The scope with another rule at a key. -/
def setRule (key : Nat) (rule : Rule) (s : Scope) : Scope :=
    { s with rules := s.rules.set key rule }

/-- The keys by kind of the rules as they are. -/
def buckets (s : Scope) : Dict RuleKind (List Nat) :=
  s.order.foldl (fun d key =>
    match s.rule? key with
    | some rule => d.insert rule.kind ((d.get? rule.kind).getD [] ++ [key])
    | none => d) []

/-- The handle of a rule. -/
def refOf (id : ScopeId) (key : Nat) (rule : Rule) : RuleRef where
  scope := id
  key
  kind := rule.kind
  slot := rule.slot.getD ""
  cell := match rule.cell with
    | some cell => .ofRule cell
    | none => .empty 0
  template := rule.content.template?

end Scope

/-- Owns scopes and turns definitions into text. -/
structure Engine where
  /-- The scopes, oldest first. -/
  scopes : Dict ScopeId Scope
  /-- The state of naming. -/
  naming : Naming
  /-- The scopes of definitions that have only one. -/
  singletons : Dict Nat ScopeId
  /-- The definitions that are declaring rules, latest first. -/
  constructing : List Nat
  /-- Whether a feature is supported. -/
  supports : String → Bool
  /-- How values are written. -/
  catalog : Catalog
  /-- The names of rules, by the place they stand in. -/
  cells : Dict Nat String
  /-- The id of the next scope. -/
  nextScope : ScopeId
  /-- The place of the next name. -/
  nextCell : Nat
  /-- What conversions share. -/
  ambient : Ambient

/-- A computation of an engine that may fail. -/
abbrev EngineM (α : Type) := ExceptT Error (StateM Engine) α

namespace Engine

/-- An engine without scopes that supports every feature. -/
def create (naming : NamingConfig) (catalog : Catalog) (ambient : Ambient) : Engine where
  scopes := []
  naming := .ofConfig naming
  singletons := []
  constructing := []
  supports := fun _ => true
  catalog
  cells := []
  nextScope := 1
  nextCell := 0
  ambient

/-- A scope. -/
def scope? (id : ScopeId) (e : Engine) : Option Scope := e.scopes.get? id

/-- The names given so far. -/
def names (e : Engine) : Names := fun cell => e.cells.get? cell

/-- What conversions read. -/
def setting (e : Engine) : Setting := ⟨e.catalog, e.names⟩

/-- The rule of a handle. -/
def rule? (id : ScopeId) (key : Nat) (e : Engine) : Option Rule :=
  (e.scope? id).bind (·.rule? key)

/-- The engine with an event reported. -/
def report (event : Event) (e : Engine) : Engine := { e with ambient := e.ambient.report event }

/-- The engine with events reported, in order. -/
def reportAll (events : List Event) (e : Engine) : Engine :=
  events.foldl (fun e event => e.report event) e

/-- The engine with a scope changed, if it has it. -/
def modifyScope (id : ScopeId) (f : Scope → Scope) (e : Engine) : Engine :=
  match e.scope? id with
  | some s => { e with scopes := e.scopes.insert id (f s) }
  | none => e

/-- A conversion with the engine's catalog and names. -/
def converting {α : Type} (c : Setting → Convert α) : EngineM α := fun e =>
  match c e.setting e.ambient with
  | (result, ambient) => (result, { e with ambient })

/-- The state of a scope; it is an error to have none. -/
def requireScope (id : ScopeId) : EngineM Scope := fun e =>
  match e.scope? id with
  | some s => (.ok s, e)
  | none => (.error .unknownScope, e)

/-- The nested scope of a group rule. -/
def nestedScope? (group : RuleRef) (e : Engine) : Option ScopeId :=
  match e.rule? group.scope group.key with
  | some { content := .group _ nested, .. } => some nested
  | _ => none

/-- The scope of a definition that has only one. -/
def scopeOf? (definition : Nat) (e : Engine) : Option ScopeId := e.singletons.get? definition

/-- The handle of a rule of a scope. -/
def refAt? (id : ScopeId) (key : Nat) (e : Engine) : Option RuleRef :=
  (e.rule? id key).map (Scope.refOf id key)

/-- A bound for walks along the links of live scopes: a longer walk meets one scope twice. -/
def walkLimit (e : Engine) : Nat := e.scopes.length + 1

/-- An engine with a new, empty place for a name. -/
def newCell (e : Engine) : Nat × Engine := (e.nextCell, { e with nextCell := e.nextCell + 1 })

/-- An engine with a new scope. -/
def addScope (s : Scope) (e : Engine) : ScopeId × Engine :=
  (e.nextScope,
    { e with scopes := e.scopes.insert e.nextScope s, nextScope := e.nextScope + 1 })

/-- The engine without a scope and the scopes nested in it; walks down `limit` times at most. -/
def discardWithin : Nat → ScopeId → Engine → Engine
  | 0, _, e => e
  | limit + 1, id, e =>
    match e.scope? id with
    | some s =>
      s.children.foldl (fun e child => discardWithin limit child e)
        { e with scopes := e.scopes.erase id }
    | none => e

/-- The engine without a scope and the scopes nested in it. -/
def discard (id : ScopeId) (e : Engine) : Engine := discardWithin e.walkLimit id e

end Engine

end StyleBook
