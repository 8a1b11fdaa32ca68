import StyleBook.Engine.Basic

namespace StyleBook

/-!
# Inheritance between rules

What a rule declares with all that its parents declare.

* `Engine.mergeRule` — the merged styleset of a rule, which is kept with the rule. A parent that
  is being merged itself contributes its own declarations only, and one whose scope is gone
  nothing; both are reported.

Each step down to the parents takes a rule from the list of rules that are not being merged, so
it ends.
-/

namespace Engine

/-- The place of every rule of every scope. -/
def allRules (e : Engine) : List (ScopeId × Nat) :=
  e.scopes.flatMap fun (id, s) => s.keys.map (id, ·)

/-- The engine with the merged styleset of a rule. -/
def setMerged (id : ScopeId) (key : Nat) (styles : Styleset) (e : Engine) : Engine :=
  match e.rule? id key with
  | some rule => e.modifyScope id (·.setRule key { rule with merged := some styles })
  | none => e

/-- The merged styleset of a rule, when only the rules in `idle` are not being merged. -/
def mergeWithin (idle : List (ScopeId × Nat)) (id : ScopeId) (key : Nat) :
    StateM Engine Styleset := do
  match (← get).rule? id key with
  | none =>
    modify (·.report .danglingParent)
    return .empty
  | some rule =>
    match rule.merged, rule.content.body? with
    | some merged, _ => return merged
    | none, none => return .empty
    | none, some body =>
      if _h : (id, key) ∈ idle then
        let inherited ← body.parents.foldlM (fun merged parent => do
          return merged.merge (← mergeWithin (idle.erase (id, key)) parent.scope parent.key))
          Styleset.empty
        let merged := inherited.merge body.styleset
        modify (·.setMerged id key merged)
        return merged
      else
        modify (·.report (.cyclicParent (rule.slot.getD "")))
        return body.styleset
termination_by idle.length
decreasing_by
  have := List.length_pos_of_mem _h
  rw [List.length_erase_of_mem _h]
  omega

/-- **The merged styleset of a rule,** which is kept with it. -/
def mergeRule (id : ScopeId) (key : Nat) : StateM Engine Styleset := do
  mergeWithin (← get).allRules id key

end Engine

end StyleBook
