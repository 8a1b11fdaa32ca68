import StyleBook.Engine.Merge
import StyleBook.Engine.Naming

namespace StyleBook

/-!
# Processing a scope

Once a definition has declared its rules, its scope is processed: rules of named kinds get their
names, rules with stylesets inherit, the rules are sorted by kind, and then the nested scopes
are processed in the same way.

* `Engine.assignName`, `Engine.mergeAt` — the two steps for one rule;
* `Engine.processScope` — all steps for a scope and the scopes nested in it.
-/

namespace Engine

/-- Put a name into its place; it is an error if there is one. -/
def fillCell (cell : Nat) (name slot : String) : EngineM Unit := fun e =>
  match e.cells.get? cell with
  | some _ => (.error (.duplicateName name slot), e)
  | none => (.ok (), { e with cells := e.cells.insert cell name })

/-- Give a rule its name, if its kind has names and it has a slot. An explicit name is also the
    name of the slot. -/
def assignName (id : ScopeId) (key : Nat) : EngineM Unit := do
  match (← get).rule? id key with
  | none => throw .unknownScope
  | some rule =>
    match rule.slot, rule.kind.isNamed with
    | some slot, true =>
      let name ← match rule.explicitName with
        | some name => do
          modify (·.modifyScope id fun s => { s with names := s.names.insert slot name })
          pure name
        | none => nameFor id slot
      match rule.cell with
      | some cell => fillCell cell name slot
      | none => throw .unknownScope
    | _, _ => return ()

/-- Merge the styleset of a rule, if it has one. -/
def mergeAt (id : ScopeId) (key : Nat) : EngineM Unit := do
  match ((← get).rule? id key).bind (·.content.body?) with
  | some _ => do
    let merged ← (mergeRule id key : StateM Engine Styleset)
    modify (·.setMerged id key merged)
  | none => return ()

/-- Do a step for each element of a list, in order, up to the first failure. -/
def forEach {α : Type} (step : α → EngineM Unit) : List α → EngineM Unit
  | [] => return ()
  | a :: rest => do
    step a
    forEach step rest

/-- Process a scope and the scopes nested in it; walks down `limit` times at most. -/
def processWithin : Nat → ScopeId → EngineM Unit
  | 0, _ => throw (.endless "")
  | limit + 1, id => do
    let s ← requireScope id
    forEach (assignName id) s.order
    forEach (mergeAt id) s.order
    modify (·.modifyScope id fun s => { s with byKind := s.buckets })
    forEach (fun child => processWithin limit child) s.children
    modify (·.modifyScope id fun s => { s with state := .processed })
    modify (·.report (.scopeProcessed s.name s.order.length s.owner.isSome))

/-- **Process a scope** and the scopes nested in it. -/
def processScope (id : ScopeId) : EngineM Unit := do
  processWithin (← get).walkLimit id

end Engine

end StyleBook
