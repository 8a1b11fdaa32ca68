import StyleBook.Engine.Basic

namespace StyleBook

/-!
# The names of slots

A slot of a scope has one name, which is found or made when it is first asked for.

* `Engine.inheritedWithin` — the name that a slot has in the scopes that are extended;
* `Engine.nameFor` — the name of a slot: the scope's own, else the owner's for a nested scope,
  else an inherited one, else a new one.
-/

namespace Engine

/-- The name of a slot in the first scope along the links to extended scopes that has one. -/
def inheritedWithin (e : Engine) (slot : String) : Nat → Option ScopeId →
    Except Error (Option String)
  | _, none => .ok none
  | 0, some _ => .error (.endless slot)
  | limit + 1, some id =>
    match e.scope? id with
    | none => .ok none
    | some s =>
      match s.nameOf? slot with
      | some name => .ok (some name)
      | none => inheritedWithin e slot limit s.base

/-- A new name for a slot of a scope with the given name. -/
def generateName (scope slot : String) : EngineM String := fun e =>
  let generated := e.naming.generate scope slot
  (.ok generated.name,
    { e with naming := generated.naming }.reportAll (generated.events scope slot))

/-- The name of a slot, found at most `limit` owners away. -/
def nameForWithin : Nat → ScopeId → String → EngineM String
  | 0, _, slot => throw (.endless slot)
  | limit + 1, id, slot => do
    let s ← requireScope id
    match s.nameOf? slot with
    | some name => return name
    | none =>
      let name ← match s.owner with
        | some owner => nameForWithin limit owner slot
        | none => do
          let e ← get
          match ← (e.inheritedWithin slot e.walkLimit s.base : Except Error (Option String)) with
          | some name => pure name
          | none => generateName s.name slot
      modify (·.modifyScope id fun s => { s with names := s.names.insert slot name })
      return name

/-- **The name of a slot,** which is made if there is none yet. -/
def nameFor (id : ScopeId) (slot : String) : EngineM String := do
  nameForWithin (← get).walkLimit id slot

end Engine

end StyleBook
