import StyleBook.Engine.Definition
import StyleBook.Engine.Process

namespace StyleBook

/-!
# Constructing scopes from definitions

A script runs against the scope it declares. It can reach other definitions, whose scripts run in
turn: to get a scope of their own, or once more in the scope that extends them.

* `Builder` — the scope a script declares, and how deep in extended definitions it runs;
* `Script.run` — one script, given how definitions are reached;
* `Engine.calls` — how definitions are reached, with a limit on how deep: a script may extend a
  definition that extends itself, without end;
* `Engine.processInstance`, `Engine.process` — the scope of a definition.

A result `none` says that the limit was reached.
-/

variable {μ : Type}

/-- A computation of an engine and a memory that may fail, or reach a limit. -/
abbrev BuildM (μ α : Type) := ExceptT Error (StateT (Engine × μ) Option) α

/-- Where a script declares its rules. -/
structure Builder where
  /-- The scope. -/
  scope : ScopeId
  /-- How many extended definitions the script runs inside. -/
  depth : Nat

/-- How a script reaches definitions. -/
structure Calls (μ : Type) where
  /-- The scope of a definition, processed. -/
  process : Nat → BuildM μ ScopeId
  /-- The script of a definition, run where another one declares. -/
  declare : Nat → Builder → BuildM μ Unit

namespace BuildM

variable {α : Type}

/-- A computation of the engine alone. -/
def onEngine (c : EngineM α) : BuildM μ α := fun (e, memory) =>
  match c e with
  | (result, e) => some (result, (e, memory))

/-- A change of the engine alone. -/
def changeEngine (f : Engine → Engine) : BuildM μ Unit := fun (e, memory) =>
  some (.ok (), (f e, memory))

/-- A computation whose failure is a result. -/
def attempt (c : BuildM μ α) : BuildM μ (Except Error α) := fun state =>
  match c state with
  | some (result, state) => some (.ok result, state)
  | none => none

/-- The limit is reached. -/
def exhausted : BuildM μ α := fun _ => none

end BuildM

namespace Engine

/-! ### Declaring -/

/-- Declare a rule under a slot. The rule of a slot that was declared before is replaced, and its
    key and the place of its name stay. -/
def addRule (id : ScopeId) (slot : String) (rule : Rule) : EngineM RuleRef := do
  let s ← requireScope id
  let rule := { rule with slot := some slot, merged := none }
  match s.named.get? slot with
  | some key =>
    let rule := { rule with cell := (s.rule? key).bind (·.cell) }
    modify (·.modifyScope id (·.setRule key rule))
    modify (·.report (.ruleRedeclared s.name slot))
    return Scope.refOf id key rule
  | none =>
    let cell ← modifyGet newCell
    let rule := { rule with cell := some cell }
    let key := s.rules.length
    modify (·.modifyScope id fun s =>
      { s with
        rules := s.rules ++ [rule], order := s.order ++ [key], named := s.named.insert slot key })
    return Scope.refOf id key rule

/-- Declare a rule without a slot. -/
def addUnnamedRule (id : ScopeId) (rule : Rule) : EngineM RuleRef := do
  let s ← requireScope id
  let cell ← modifyGet newCell
  let rule := { rule with cell := some cell, merged := none }
  let key := s.rules.length
  modify (·.modifyScope id fun s =>
    { s with rules := s.rules ++ [rule], order := s.order ++ [key], unnamed := s.unnamed ++ [key] })
  return Scope.refOf id key rule

/-- The handle of a slot. -/
def findRule (id : ScopeId) (slot : String) (e : Engine) : Option RuleRef :=
  ((e.scope? id).bind (·.named.get? slot)).bind (e.refAt? id)

/-- A new scope inside another one. -/
def addNested (owner : ScopeId) : EngineM ScopeId := do
  let s ← requireScope owner
  let child ← modifyGet (addScope
    { name := s.name, definition := s.definition, multiplex := false, owner := some owner })
  modify (·.modifyScope owner fun s => { s with children := s.children ++ [child] })
  return child

/-- The scope with a reference, which it has only once. -/
def addReference (id used : ScopeId) (e : Engine) : Engine :=
  e.modifyScope id fun s =>
    if used ∈ s.references then s else { s with references := s.references ++ [used] }

/-- Handles to the named rules of a scope. -/
def collectRefs (id : ScopeId) : EngineM ScopeRefs := do
  let s ← requireScope id
  let e ← get
  return ⟨id, s.name, s.named.filterMap fun (slot, key) => (e.refAt? id key).map (slot, ·)⟩

/-- The scope of a definition that has only one, unless it is being declared. -/
def existing (title : String) (id : ScopeId) : EngineM ScopeId := do
  let s ← requireScope id
  if s.state = .unprocessed then throw (.definitionCycle title) else return id

/-- The engine without the scope of a definition that failed. -/
def abandon (id : ScopeId) (key : Nat) (e : Engine) : Engine :=
  let e := if e.singletons.get? key = some id then
      { e with singletons := e.singletons.erase key }
    else e
  e.discard id

/-- A new scope for a definition, under a name of its own. -/
def openScope (d : Definition μ) : EngineM ScopeId := do
  let name ← modifyGet fun e =>
    let (name, naming) := e.naming.reserve d.scopeName d.multiplex
    (name, { e with naming })
  let id ← modifyGet (addScope { name, definition := d.title, multiplex := d.multiplex })
  if !d.multiplex then
    modify fun e => { e with singletons := e.singletons.insert d.key id }
  modify fun e => { e with constructing := d.key :: e.constructing }
  return id

end Engine

open BuildM

/-! ### Running scripts -/

/-- Run a script where it declares. A failed group stays nested in the scope; its rule is
    missing. -/
def Script.run (calls : Calls μ) : Script μ → Builder → BuildM μ Unit
  | .done, _ => return ()
  | .fail e, _ => throw e
  | .add slot rule next, b => do
    let r ← onEngine (Engine.addRule b.scope slot rule)
    (next r).run calls b
  | .addUnnamed rule next, b => do
    let r ← onEngine (Engine.addUnnamedRule b.scope rule)
    (next r).run calls b
  | .find slot next, b => do
    let (e, _) ← get
    (next (e.findRule b.scope slot)).run calls b
  | .scope next, b => (next b.scope).run calls b
  | .extend definition next, b => do
    let answer ← attempt do
      let base ← calls.process definition
      if b.depth = 0 then
        changeEngine (·.modifyScope b.scope fun s => { s with base := some base })
      calls.declare definition { b with depth := b.depth + 1 }
      return base
    (next answer).run calls b
  | .use definition next, b => do
    let answer ← attempt do
      let used ← calls.process definition
      changeEngine (·.addReference b.scope used)
      onEngine (Engine.collectRefs used)
    (next answer).run calls b
  | .group condition body next, b => do
    let answer ← attempt do
      let child ← onEngine (Engine.addNested b.scope)
      body.run calls ⟨child, 0⟩
      onEngine (Engine.addUnnamedRule b.scope (.ofContent (.group condition child)))
    (next answer).run calls b
  | .nameOf cell next, b => do
    let (e, _) ← get
    (next (cell.name? e.names)).run calls b
  | .report event next, b => do
    changeEngine (·.report event)
    next.run calls b
  | .look next, b => do
    let (_, memory) ← get
    (next memory).run calls b
  | .remember change next, b => do
    modify fun (e, memory) => (e, change memory)
    next.run calls b

namespace Engine

/-- Run the script of a definition in its new scope, and process the scope. After a failure the
    scope is discarded. -/
def construct (calls : Calls μ) (d : Definition μ) : BuildM μ ScopeId := do
  let id ← onEngine (openScope d)
  let declared ← attempt (d.script.run calls ⟨id, 0⟩)
  changeEngine fun e => { e with constructing := e.constructing.drop 1 }
  match declared with
  | .error e => do
    changeEngine (·.abandon id d.key)
    changeEngine (·.report (.definitionFailed d.title e))
    match e with
    | .definitionCycle _ => throw e
    | _ => throw (.definitionConstruction d.title e.message)
  | .ok () =>
    match ← attempt (onEngine (processScope id)) with
    | .error e => do
      changeEngine (·.abandon id d.key)
      throw e
    | .ok () => return id

/-- The scope of a given instance of a definition. -/
def processInstanceWith (calls : Calls μ) (d : Definition μ) : BuildM μ ScopeId := do
  let (e, _) ← get
  if d.key ∈ e.constructing then throw (.definitionCycle d.title)
  else
    match d.multiplex, e.scopeOf? d.key with
    | false, some id => onEngine (existing d.title id)
    | _, _ => construct calls d

/-- The scope of a definition. -/
def processWith (calls : Calls μ) (d : Definition μ) : BuildM μ ScopeId := do
  let (e, _) ← get
  match e.scopeOf? d.key with
  | some id => onEngine (existing d.title id)
  | none => processInstanceWith calls d

/-- How scripts reach the definitions of a library, at most `limit` of them inside each other. -/
def calls (library : Library μ) : Nat → Calls μ
  | 0 => ⟨fun _ => exhausted, fun _ _ => exhausted⟩
  | limit + 1 =>
    { process := fun key => processWith (calls library limit) (library key)
      declare := fun key b => (library key).script.run (calls library limit) b }

/-- **The scope of a definition,** which is processed if it has none yet or gets a new one every
    time. -/
def process (library : Library μ) (limit key : Nat) : BuildM μ ScopeId :=
  processWith (calls library limit) (library key)

/-- **The scope of an instance of a definition.** -/
def processInstance (library : Library μ) (limit : Nat) (d : Definition μ) : BuildM μ ScopeId :=
  processInstanceWith (calls library limit) d

end Engine

end StyleBook
