import StyleBook.Sheet.Styleset

namespace StyleBook

/-!
# Rules

A rule of a style sheet, before and after it belongs to a scope.

* `RuleKind` — the kinds of rules; rules of some kinds have names;
* `RuleRef` — a handle to a rule of a scope, from which values and selectors are made;
* `Rule` — a rule: what it says, its explicit name, and what its scope gave it;
* `Rule.css` — its text.
-/

/-- Tells scopes apart. No scope has the id `0`. -/
abbrev ScopeId := Nat

/-- The kinds of rules. -/
inductive RuleKind
  | cls | id | tag | selector | animation | var | counter | page | group
  deriving DecidableEq, Repr

namespace RuleKind

/-- Every kind. -/
def all : List RuleKind :=
  [.cls, .id, .tag, .selector, .animation, .var, .counter, .page, .group]

/-- The name of a kind, as reports spell it. -/
def name : RuleKind → String
  | .cls => "Class"
  | .id => "Id"
  | .tag => "Tag"
  | .selector => "Selector"
  | .animation => "Animation"
  | .var => "Var"
  | .counter => "Counter"
  | .page => "Page"
  | .group => "Group"

/-- Whether rules of the kind are given names. -/
def isNamed : RuleKind → Bool
  | .cls | .id | .animation | .var | .counter => true
  | _ => false

/-- How a rule of the kind is mentioned in a value. -/
def valueForm : RuleKind → NameForm
  | .var => .var
  | _ => .bare

end RuleKind

/-- A handle to a rule. -/
structure RuleRef where
  /-- The scope of the rule. -/
  scope : ScopeId
  /-- The place of the rule in its scope. -/
  key : Nat
  /-- Its kind. -/
  kind : RuleKind
  /-- The slot it was declared under, or nothing. -/
  slot : String
  /-- Where its name stands. -/
  cell : NameCell
  /-- The property whose values the rule's values are written like. -/
  template : Option String
  deriving DecidableEq, Repr

namespace RuleRef

/-- A mention of the rule's name. -/
def nameRef (form : NameForm) (r : RuleRef) : NameRef := ⟨r.slot, r.cell, form⟩

/-- The rule as a value. -/
def value (r : RuleRef) : Value := .ref (r.nameRef r.kind.valueForm)

/-- The rule's name, if it has one. -/
def name? (names : Names) (r : RuleRef) : Option String := r.cell.name? names

/-- Handles of one place in one scope. -/
def same (a b : RuleRef) : Bool := a.scope = b.scope && a.key = b.key

end RuleRef

/-- The styleset with a custom property that a rule stands for. -/
def Styleset.customOf (rule : RuleRef) (value : Value) : Styleset → Styleset :=
  addCustom ⟨rule.nameRef .customProperty, rule.template, value⟩

/-- A styleset of a rule, and the rules it inherits from. -/
structure StyleBody where
  /-- The rule's own declarations. -/
  styleset : Styleset
  /-- The parents, in order. -/
  parents : List RuleRef

/-- A point of an animation. -/
inductive Waypoint
  /-- `from`. -/
  | start
  /-- `to`. -/
  | finish
  /-- A percentage of the way. -/
  | at (percent : Number)
  deriving DecidableEq, Repr

/-- The text of a waypoint. -/
def Waypoint.text : Waypoint → String
  | .start => "from"
  | .finish => "to"
  | .at percent => percent.css ++ "%"

/-- One frame of an animation. -/
structure Keyframe where
  /-- Where it is. -/
  waypoint : Waypoint
  /-- What it declares. -/
  styleset : Styleset

/-- The condition of a group of rules. -/
inductive GroupCondition
  /-- A media query; the group is always written. -/
  | media (query : String)
  /-- A feature query; the group is written if the feature is supported. -/
  | supports (query : String)
  deriving DecidableEq, Repr

namespace GroupCondition

/-- The keyword in front of the query. -/
def keyword : GroupCondition → String
  | .media _ => "@media"
  | .supports _ => "@supports"

/-- The query. -/
def query : GroupCondition → String
  | .media query | .supports query => query

end GroupCondition

/-- What a rule says. -/
inductive RuleContent
  | cls (body : StyleBody)
  | id (body : StyleBody)
  | tag (element : String) (body : StyleBody)
  | selector (selector : Selector) (body : StyleBody)
  | animation (frames : List Keyframe)
  | var (template : Option String) (value : Value)
  | counter
  | page (pseudo : Option String) (body : StyleBody)
  | group (condition : GroupCondition) (nested : ScopeId)

namespace RuleContent

/-- The kind of the rule. -/
def kind : RuleContent → RuleKind
  | .cls _ => .cls
  | .id _ => .id
  | .tag .. => .tag
  | .selector .. => .selector
  | .animation _ => .animation
  | .var .. => .var
  | .counter => .counter
  | .page .. => .page
  | .group .. => .group

/-- The styleset and parents, of a kind that has them. -/
def body? : RuleContent → Option StyleBody
  | .cls body | .id body | .tag _ body | .selector _ body | .page _ body => some body
  | _ => none

/-- The content with its styleset and parents changed, if it has them. -/
def mapBody (f : StyleBody → StyleBody) : RuleContent → RuleContent
  | .cls body => .cls (f body)
  | .id body => .id (f body)
  | .tag element body => .tag element (f body)
  | .selector s body => .selector s (f body)
  | .page pseudo body => .page pseudo (f body)
  | content => content

/-- The property whose values a custom property's value is written like. -/
def template? : RuleContent → Option String
  | .var template _ => template
  | _ => none

end RuleContent

/-- A rule. -/
structure Rule where
  /-- What it says. -/
  content : RuleContent
  /-- A name to use in place of a generated one. -/
  explicitName : Option String := none
  /-- The slot it was declared under. -/
  slot : Option String := none
  /-- The place of its name, once it belongs to a scope. -/
  cell : Option Nat := none
  /-- Its declarations with those it inherits, once its scope is processed. -/
  merged : Option Styleset := none

namespace Rule

/-- A rule with nothing but its content. -/
def ofContent (content : RuleContent) : Rule := { content }

/-- A class rule. -/
def cls (s : Styleset) : Rule := ofContent (.cls ⟨s, []⟩)

/-- An id rule. -/
def id (s : Styleset) : Rule := ofContent (.id ⟨s, []⟩)

/-- A rule for an element name. -/
def tag (element : String) (s : Styleset) : Rule := ofContent (.tag element ⟨s, []⟩)

/-- A rule for a selector. -/
def selector (selector : Selector) (s : Styleset) : Rule := ofContent (.selector selector ⟨s, []⟩)

/-- An animation. -/
def animation (frames : List Keyframe) : Rule := ofContent (.animation frames)

/-- A custom property, written at the default or like a property. -/
def var (template : Option String) (value : Value) : Rule := ofContent (.var template value)

/-- A counter. -/
def counter : Rule := ofContent .counter

/-- A page rule. -/
def page (pseudo : Option String) (s : Styleset) : Rule := ofContent (.page pseudo ⟨s, []⟩)

/-- The kind of the rule. -/
def kind (r : Rule) : RuleKind := r.content.kind

/-- The rule with more parents, if it has a styleset. -/
def inherit (parents : List RuleRef) (r : Rule) : Rule :=
  { r with content := r.content.mapBody fun b => { b with parents := b.parents ++ parents } }

/-- What is reported when the rule is given parents. -/
def inheritEvents (r : Rule) : List Event :=
  if r.content.body?.isSome then [] else [.parentsIgnored r.kind.name]

/-- The rule with an explicit name. -/
def named (name : String) (r : Rule) : Rule := { r with explicitName := some name }

/-- The rule's name, if it has one. -/
def name? (names : Names) (r : Rule) : Option String := r.cell.bind names

/-- The rule's name; it is an error to have none. -/
def requireName (names : Names) (r : Rule) : Except Error String :=
  match r.name? names with
  | some name => .ok name
  | none => .error (.unassignedName (r.slot.getD ""))

/-- What the rule declares: with what it inherits once that is known. -/
def styleset? (r : Rule) : Option Styleset :=
  r.merged.or (r.content.body?.map (·.styleset))

/-- The selector of the rule's declarations, of a kind that has one. -/
def selectorText? (names : Names) (r : Rule) : Except Error (Option String) :=
  match r.content with
  | .cls _ => (r.requireName names).map fun name => some ("." ++ name)
  | .id _ => (r.requireName names).map fun name => some ("#" ++ name)
  | .tag element _ => .ok (some element)
  | .selector selector _ => (selector.render names).map some
  | .page (some pseudo) _ => .ok (some ("@page " ++ pseudo))
  | .page none _ => .ok (some "@page")
  | _ => .ok none

/-- The frames of an animation as text. -/
def framesText (setting : Setting) : List Keyframe → Convert String
  | [] => return ""
  | frame :: rest => do
    let text ← frame.styleset.declarations setting
    let texts ← framesText setting rest
    return frame.waypoint.text ++ "\x7b" ++ text ++ "\x7d" ++ texts

/-- The text of the rule: its declarations and what depends on them, or an animation. Custom
    properties, counters and groups have no text of their own. -/
def css (setting : Setting) (r : Rule) : Convert (List String) := do
  match r.content with
  | .animation frames => do
    let name ← Convert.ofExcept (r.requireName setting.names)
    let text ← framesText setting frames
    return ["@keyframes " ++ name ++ "\x7b" ++ text ++ "\x7d"]
  | _ => do
    match ← Convert.ofExcept (r.selectorText? setting.names), r.styleset? with
    | some selector, some styleset => styleset.rules setting selector
    | _, _ => return []

end Rule

end StyleBook
