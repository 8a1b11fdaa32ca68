import StyleBook.Engine.Serialize

namespace StyleBook

/-!
# Activating scopes

A scope's text is in the sink as long as the scope has users. The first user puts it there,
behind the texts of the scopes it references; the last one takes it out.

* `Engine.activate` — one more user. If anything fails, what was activated on the way is
  released again;
* `Engine.deactivate` — one user less.
-/

variable {σ : Type} [Sink σ]

/-- A computation of an engine and a sink that may fail. -/
abbrev ActiveM (σ α : Type) := ExceptT Error (StateM (Engine × σ)) α

namespace Engine

/-- A computation of the engine alone. -/
def onEngine {α : Type} (c : EngineM α) : ActiveM σ α := fun (e, sink) =>
  match c e with
  | (result, e) => (result, (e, sink))

/-- A change of the engine alone. -/
def changeEngine (f : Engine → Engine) : ActiveM σ Unit := fun (e, sink) => (.ok (), (f e, sink))

/-- A change of the sink alone. -/
def changeSink (f : σ → σ) : ActiveM σ Unit := fun (e, sink) => (.ok (), (e, f sink))

/-- The scope with another number of users. -/
def setUsers (id : ScopeId) (users : Nat) (e : Engine) : Engine :=
  e.modifyScope id fun s => { s with users }

/-- Release references in order, up to the first failure. -/
def deactivateEach (release : ScopeId → ActiveM σ Unit) : List ScopeId → ActiveM σ Unit
  | [] => return ()
  | reference :: rest => do
    release reference
    deactivateEach release rest

/-- Release a user of a scope; references are followed at most `limit` deep. -/
def deactivateWithin : Nat → ScopeId → ActiveM σ Unit
  | 0, _ => throw (.endless "")
  | limit + 1, id => do
    let s ← onEngine (requireScope id)
    match s.users with
    | 0 => changeEngine (·.report (.notActive s.name))
    | 1 => do
      changeEngine fun e =>
        (e.modifyScope id fun s => { s with users := 0, state := .cleared }).report
          (.scopeCleared s.name)
      changeSink (Sink.remove id)
      deactivateEach (fun reference => deactivateWithin limit reference) s.references.reverse
    | users + 2 =>
      changeEngine fun e => (e.setUsers id (users + 1)).report (.stillInUse s.name (users + 1))

/-- **Release a user of a scope.** The last one takes the scope's text out of the sink and
    releases the references, latest first. -/
def deactivate (id : ScopeId) : ActiveM σ Unit := fun (e, sink) =>
  deactivateWithin e.walkLimit id (e, sink)

/-- Release what was activated, latest first. A failure is reported. -/
def rollBack : List ScopeId → ActiveM σ Unit
  | [] => return ()
  | reference :: rest => do
    tryCatch (deactivate reference) fun e => changeEngine (·.report (.rollbackFailed e))
    rollBack rest

/-- Activate references in order; `done` are those already activated, latest first. After a
    failure they are released. -/
def activateEach (activate : ScopeId → ActiveM σ Unit) (done : List ScopeId) :
    List ScopeId → ActiveM σ Unit
  | [] => return ()
  | reference :: rest => do
    tryCatch (activate reference) fun e => do
      rollBack done
      throw e
    activateEach activate (reference :: done) rest

/-- Add a user to a scope; references are followed at most `limit` deep. -/
def activateWithin : Nat → ScopeId → ActiveM σ Unit
  | 0, _ => throw (.endless "")
  | limit + 1, id => do
    let s ← onEngine (requireScope id)
    match s.users with
    | users + 1 =>
      changeEngine fun e => (e.setUsers id (users + 2)).report (.alreadyActive s.name (users + 2))
    | 0 => do
      let texts ← onEngine fun e =>
        match e.serialize id e.ambient with
        | (result, ambient) => (result, { e with ambient })
      activateEach (fun reference => activateWithin limit reference) [] s.references
      changeSink (Sink.insertAll id texts)
      let _ ← onEngine (requireScope id)
      changeEngine fun e =>
        (e.modifyScope id fun s => { s with users := 1, state := .inserted }).report
          (.scopeInserted s.name)

/-- **Add a user to a scope.** The first one puts the scope's text into the sink, behind the
    texts of its references. After a failure nothing is left behind. -/
def activate (id : ScopeId) : ActiveM σ Unit := fun (e, sink) =>
  activateWithin e.walkLimit id (e, sink)

end Engine

end StyleBook
