import StyleBook.Engine.Basic
import StyleBook.Sheet.Sink

namespace StyleBook

/-!
# The text of a scope

* `Engine.serialize` — the texts of the rules of a processed scope: its custom properties as one
  block for the root, then rule by rule. A group is written around the text of its nested scope,
  except for a group whose feature is not supported, which is left out;
* `Engine.render` — all texts as one.
-/

namespace Engine

/-- The custom properties among rules, as declarations. One whose value has no text is reported
    and left out. -/
def rootDeclarations (setting : Setting) : List Rule → Convert String
  | [] => return ""
  | rule :: rest => do
    let text ← match rule.content with
      | .var template value => do
        let name ← Convert.ofExcept (rule.requireName setting.names)
        match ← Convert.attempt
            (convert setting (setting.catalog.templateRecipe template) value) with
        | .ok text => pure ("--" ++ name ++ ":" ++ text ++ ";")
        | .error e => do
          Convert.report (.variableSkipped name e)
          pure ""
      | _ => pure ""
    let texts ← rootDeclarations setting rest
    return text ++ texts

/-- The texts of rules one after the other; `nested` writes nested scopes. -/
def ruleTexts (e : Engine) (nested : ScopeId → Convert (List String)) :
    List Rule → Convert (List String)
  | [] => return []
  | rule :: rest => do
    let texts ← match rule.content with
      | .var .. | .counter => pure []
      | .group condition id => groupTexts condition id
      | _ => rule.css e.setting
    let others ← ruleTexts e nested rest
    return texts ++ others
where
  /-- A group around the text of its nested scope. -/
  groupText (condition : GroupCondition) (id : ScopeId) : Convert (List String) := do
    let inner ← nested id
    return [condition.keyword ++ " " ++ condition.query ++ "\x7b" ++ concatTexts inner ++ "\x7d"]
  /-- A group, unless its feature is not supported. -/
  groupTexts (condition : GroupCondition) (id : ScopeId) : Convert (List String) :=
    match condition with
    | .supports query =>
      if e.supports query then groupText condition id
      else do
        Convert.report (.groupSkipped query)
        return []
    | .media _ => groupText condition id

/-- The texts of a scope, whose groups are nested at most `limit` deep. -/
def serializeWithin (e : Engine) : Nat → ScopeId → Convert (List String)
  | 0, _ => throw (.endless "")
  | limit + 1, id =>
    match e.scope? id with
    | none => throw .unknownScope
    | some s => do
      let vars ← rootDeclarations e.setting s.rules
      let texts ← ruleTexts e (fun nested => serializeWithin e limit nested) s.rules
      return (if vars = "" then [] else [":root\x7b" ++ vars ++ "\x7d"]) ++ texts

/-- **The texts of a scope.** -/
def serialize (e : Engine) (id : ScopeId) : Convert (List String) :=
  e.serializeWithin e.walkLimit id

/-- The whole text of a scope. -/
def render (e : Engine) (id : ScopeId) : Convert String := do
  return concatTexts (← e.serialize id)

end Engine

end StyleBook
