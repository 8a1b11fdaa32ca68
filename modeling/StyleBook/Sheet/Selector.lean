import StyleBook.Name.Ref

namespace StyleBook

/-!
# Selectors

Selectors are put together from text and the names of rules, which are filled in when the
selector is written.

* `Selector` — a selector; `Selector.render` is its text;
* `Selector.under` — its text relative to an owner: `&` stands for the owner, and a selector
  without `&` follows it.
-/

/-- A piece of a selector. -/
inductive SelectorToken
  /-- Text. -/
  | text (s : String)
  /-- The name of a rule. -/
  | name (ref : NameRef)
  deriving DecidableEq, Repr

/-- How one part of a selector relates to the next. -/
inductive Combinator
  | descendant | child | adjacent | sibling
  deriving DecidableEq, Repr

/-- The text between the parts. -/
def Combinator.text : Combinator → String
  | .descendant => " "
  | .child => ">"
  | .adjacent => "+"
  | .sibling => "~"

/-- A selector. -/
structure Selector where
  /-- Its pieces, in order. -/
  tokens : List SelectorToken
  deriving DecidableEq, Repr

namespace Selector

/-- The selector without pieces. -/
def empty : Selector := ⟨[]⟩

/-- A selector of text. -/
def ofText (s : String) : Selector := ⟨[.text s]⟩

/-- The selector with a piece behind it. -/
def push (token : SelectorToken) (selector : Selector) : Selector := ⟨selector.tokens ++ [token]⟩

/-- The selector with text behind it. -/
def text (s : String) : Selector → Selector := push (.text s)

/-- The selector with a name behind it. -/
def name (ref : NameRef) : Selector → Selector := push (.name ref)

/-- The selector with a combinator behind it. -/
def combine (c : Combinator) : Selector → Selector := text c.text

/-- The text of pieces. -/
def renderTokens (names : Names) : List SelectorToken → Except Error String
  | [] => .ok ""
  | .text s :: rest => (renderTokens names rest).map (s ++ ·)
  | .name ref :: rest => do
    let s ← ref.render names
    (renderTokens names rest).map (s ++ ·)

/-- The text of the selector. -/
def render (names : Names) (selector : Selector) : Except Error String :=
  renderTokens names selector.tokens

/-- The owner in place of every `&`. -/
def replaceOwner (owner : List Char) : List Char → List Char
  | [] => []
  | c :: rest => if c = '&' then owner ++ replaceOwner owner rest else c :: replaceOwner owner rest

/-- A text relative to an owner. -/
def relative (owner text : String) : String :=
  if '&' ∈ text.toList then String.ofList (replaceOwner owner.toList text.toList)
  else owner ++ text

/-- The text of the selector relative to an owner. -/
def under (names : Names) (owner : String) (selector : Selector) : Except Error String :=
  (selector.render names).map (relative owner)

/-- Equality piece by piece; names must be the same mention. -/
def sameTokens : List SelectorToken → List SelectorToken → Bool
  | [], [] => true
  | .text a :: as, .text b :: bs => a == b && sameTokens as bs
  | .name a :: as, .name b :: bs => a.same b && sameTokens as bs
  | _, _ => false

/-- Equality of selectors. -/
def same (a b : Selector) : Bool := sameTokens a.tokens b.tokens

end Selector

end StyleBook
