import StyleBook.Dict
import StyleBook.Rule.Basic

namespace StyleBook

/-!
# Sinks

Where the texts of active scopes go.

* `Sink` — what a sink can do: take a rule's text of a scope, and drop all of a scope;
* `TextSink` — all texts in the order in which they came;
* `SheetSink` — the texts of each scope, in the order in which the scopes came.
-/

/-- A destination of rule texts. -/
class Sink (σ : Type) where
  /-- Take one more text of a scope. -/
  insert : ScopeId → String → σ → σ
  /-- Drop all texts of a scope. -/
  remove : ScopeId → σ → σ

/-- Take several texts of a scope, in order. -/
def Sink.insertAll {σ : Type} [Sink σ] (scope : ScopeId) (texts : List String) (sink : σ) : σ :=
  texts.foldl (fun sink text => Sink.insert scope text sink) sink

/-- Texts one after the other. -/
def concatTexts (texts : List String) : String := String.join texts

/-- All texts in the order in which they came. -/
structure TextSink where
  /-- Each text with its scope. -/
  rules : List (ScopeId × String)
  deriving DecidableEq, Repr

namespace TextSink

/-- The sink that holds nothing. -/
def empty : TextSink := ⟨[]⟩

instance : Sink TextSink where
  insert scope text sink := ⟨sink.rules ++ [(scope, text)]⟩
  remove scope sink := ⟨sink.rules.filter fun entry => entry.1 ≠ scope⟩

/-- All texts as one. -/
def css (sink : TextSink) : String := concatTexts (sink.rules.map Prod.snd)

end TextSink

/-- The texts of each scope, in the order in which the scopes came. -/
structure SheetSink where
  /-- The texts by scope. -/
  sheets : Dict ScopeId (List String)
  deriving DecidableEq, Repr

namespace SheetSink

/-- The sink that holds nothing. -/
def empty : SheetSink := ⟨[]⟩

/-- The texts of a scope. -/
def rules (scope : ScopeId) (sink : SheetSink) : List String := (sink.sheets.get? scope).getD []

instance : Sink SheetSink where
  insert scope text sink := ⟨sink.sheets.insert scope (sink.rules scope ++ [text])⟩
  remove scope sink := ⟨sink.sheets.erase scope⟩

/-- Whether the sink holds a scope. -/
def contains (scope : ScopeId) (sink : SheetSink) : Bool := sink.sheets.contains scope

/-- All texts as one. -/
def css (sink : SheetSink) : String := concatTexts sink.sheets.values.flatten

end SheetSink

end StyleBook
