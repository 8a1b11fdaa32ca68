import StyleBook.Engine.Activate
import StyleBook.Engine.Construct

namespace StyleBook

/-!
# Sessions

An engine in use: with the memory that its definitions share, and the sink that takes its texts.

* `Session`, `SessionM` — the three together, and computations over them that may fail, or reach
  the limit on definitions inside each other;
* `Session.building`, `Session.activating` — what needs no sink, and what needs no memory;
* `Session.activateDefinition` — a definition brought into the sink.
-/

/-- An engine in use. -/
structure Session (μ σ : Type) where
  /-- The engine. -/
  engine : Engine
  /-- What the definitions share. -/
  memory : μ
  /-- What takes the texts. -/
  sink : σ

/-- A computation of a session that may fail, or reach a limit. -/
abbrev SessionM (μ σ α : Type) := ExceptT Error (StateT (Session μ σ) Option) α

namespace Session

variable {μ σ α : Type}

/-- A computation that leaves the sink alone. -/
def building (c : BuildM μ α) : SessionM μ σ α := fun s =>
  match c (s.engine, s.memory) with
  | some (result, (engine, memory)) => some (result, { s with engine, memory })
  | none => none

/-- A computation that leaves the memory alone. -/
def activating (c : ActiveM σ α) : SessionM μ σ α := fun s =>
  match c (s.engine, s.sink) with
  | (result, (engine, sink)) => some (result, { s with engine, sink })

/-- **One more user of the scope of a definition,** which is processed if it has none yet or
    gets a new one every time. -/
def activateDefinition [Sink σ] (library : Library μ) (limit key : Nat) :
    SessionM μ σ ScopeId := do
  let id ← building (Engine.process library limit key)
  activating (Engine.activate id)
  return id

end Session

end StyleBook
