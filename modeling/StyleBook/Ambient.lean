import StyleBook.Event
import StyleBook.NumericFamily

namespace StyleBook

/-!
# What conversions share

A conversion can see and leave traces: the units in force, which text sources were asked, and
what was reported.

* `Ambient` — these three;
* `Convert` — a computation that may fail and always hands its traces on;
* `Convert.ask`, `Convert.report`, `Convert.attempt` — one question to a source, one event, and
  a computation whose failure is a result.
-/

/-- The state that conversions share. -/
structure Ambient where
  /-- The units that were changed. -/
  units : UnitTable
  /-- The ids of the sources that were asked, latest first. -/
  asked : List Nat
  /-- What was reported, latest first. -/
  events : List Event

namespace Ambient

/-- Standard units, nothing asked and nothing reported. -/
def initial : Ambient := ⟨[], [], []⟩

/-- One more event. -/
def report (event : Event) (a : Ambient) : Ambient := { a with events := event :: a.events }

/-- One more question to a source. -/
def ask (id : Nat) (a : Ambient) : Ambient := { a with asked := id :: a.asked }

/-- The units of a family changed, which is reported. -/
def setUnits (family : NumericFamily) (units : Units) (a : Ambient) : Ambient :=
  { a with units := a.units.insert family.id units }.report
    (.unitsChanged family.name units.int units.fraction)

/-- How often a source was asked. -/
def count (id : Nat) (a : Ambient) : Nat := a.asked.count id

/-- The log, oldest line first. -/
def log (a : Ambient) : List String := a.events.reverse.map Event.line

end Ambient

/-- A computation over the ambient state that may fail. -/
abbrev Convert (α : Type) := ExceptT Error (StateM Ambient) α

namespace Convert

variable {α : Type}

/-- A result that needs no state. -/
def ofExcept (result : Except Error α) : Convert α := fun a => (result, a)

/-- Report an event. -/
def report (event : Event) : Convert Unit := fun a => (.ok (), a.report event)

/-- Count a question to a source, and say how often it was asked before. -/
def ask (id : Nat) : Convert Nat := fun a => (.ok (a.count id), a.ask id)

/-- The units in force. -/
def units : Convert UnitTable := fun a => (.ok a.units, a)

/-- A computation whose failure is a result. -/
def attempt (c : Convert α) : Convert (Except Error α) := fun a =>
  match c a with
  | (result, a) => (.ok result, a)

/-- A computation with another error in place of its own. -/
def mapError (f : Error → Error) (c : Convert α) : Convert α := fun a =>
  match c a with
  | (result, a) => (result.mapError f, a)

end Convert

end StyleBook
