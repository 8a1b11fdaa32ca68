import StyleBook.Event

namespace StyleBook

/-!
# Giving names

Names for rules and for scopes, each handed out once.

* `Naming` — the policy, a counter, and the names handed out so far;
* `Naming.generate` — a name for a slot of a scope: scope and slot joined, or a lead and a
  number; a name that is taken gives way to the first free one with a number;
* `Naming.reserve` — a name for a scope, with a number if it is taken or must be new.

A search tries the counter's numbers in order. It passes over names that are taken, of which
there are finitely many, and different numbers make different names, so it ends.
-/

/-- What names of rules look like. -/
inductive NamingMode
  /-- The scope's name and the slot. -/
  | readable
  /-- A lead and a number. -/
  | optimized
  deriving DecidableEq, Repr

/-- The settings that naming starts with. -/
structure NamingConfig where
  /-- What names of rules look like. -/
  mode : NamingMode := .readable
  /-- What optimized names start with. -/
  lead : String := "n"
  /-- The first number that is tried. -/
  firstId : Nat := 1
  deriving DecidableEq, Repr

/-- The state of naming. -/
structure Naming where
  /-- What names of rules look like from now on. -/
  mode : NamingMode
  /-- What optimized names start with from now on. -/
  lead : String
  /-- The next number. -/
  nextId : Nat
  /-- The scope names handed out. -/
  scopeNames : List String
  /-- The rule names handed out. -/
  used : List String
  deriving DecidableEq, Repr

/-- A name for a slot, with the state behind it. -/
structure GeneratedName where
  /-- The name. -/
  name : String
  /-- The names that were tried first and are taken, in order. -/
  taken : List String
  /-- The state in which the name is handed out. -/
  naming : Naming

namespace Naming

/-- The state that settings start with. -/
def ofConfig (config : NamingConfig) : Naming :=
  { mode := config.mode, lead := config.lead, nextId := config.firstId,
    scopeNames := [], used := [] }

/-- Readable names from the standard settings. -/
def initial : Naming := ofConfig {}

/-- Optimized names with a lead from now on. -/
def useOptimized (lead : String) (n : Naming) : Naming := { n with mode := .optimized, lead }

/-- Readable names from now on. -/
def useReadable (n : Naming) : Naming := { n with mode := .readable }

/-- The next number, which is then taken. -/
def takeId (n : Naming) : Nat × Naming := (n.nextId, { n with nextId := n.nextId + 1 })

/-- Whether a rule name was handed out. -/
def isUsed (name : String) (n : Naming) : Bool := name ∈ n.used

/-- The candidates from a number on, up to the first that is free; `limit` of them at most. -/
def takenFrom (candidate : Nat → String) (taken : List String) : Nat → Nat → List String
  | 0, _ => []
  | limit + 1, id =>
    if candidate id ∈ taken then candidate id :: takenFrom candidate taken limit (id + 1) else []

/-- The taken candidates before the first free one. No more than all taken names stand there. -/
def blocked (candidate : Nat → String) (taken : List String) (id : Nat) : List String :=
  takenFrom candidate taken taken.length id

/-- A text, an underscore and a number. -/
def suffixed (text : String) (id : Nat) : String := text ++ "_" ++ Nat.repr id

/-- **A name for a slot.** -/
def generate (scope slot : String) (n : Naming) : GeneratedName :=
  match n.mode with
  | .readable =>
    let plain := scope ++ "_" ++ slot
    if plain ∈ n.used then
      let taken := blocked (suffixed plain) n.used n.nextId
      let id := n.nextId + taken.length
      let name := suffixed plain id
      ⟨name, plain :: taken, { n with nextId := id + 1, used := name :: n.used }⟩
    else ⟨plain, [], { n with used := plain :: n.used }⟩
  | .optimized =>
    let candidate := fun id => n.lead ++ Nat.repr id
    let taken := blocked candidate n.used n.nextId
    let id := n.nextId + taken.length
    let name := candidate id
    ⟨name, taken, { n with nextId := id + 1, used := name :: n.used }⟩

/-- **A name for a scope.** A scope that is one of many never has the plain name. -/
def reserve (name : String) (multiplex : Bool) (n : Naming) : String × Naming :=
  if multiplex || name ∈ n.scopeNames then
    let taken := blocked (suffixed name) n.scopeNames n.nextId
    let id := n.nextId + taken.length
    let reserved := suffixed name id
    (reserved, { n with nextId := id + 1, scopeNames := reserved :: n.scopeNames })
  else (name, { n with scopeNames := name :: n.scopeNames })

end Naming

namespace GeneratedName

/-- Each name that was taken, with the one that was tried next. -/
def replaced : List String → String → List (String × String)
  | [], _ => []
  | [last], name => [(last, name)]
  | first :: second :: rest, name => (first, second) :: replaced (second :: rest) name

/-- What is reported about a name, in order. -/
def events (scope slot : String) (g : GeneratedName) : List Event :=
  (replaced g.taken g.name).map (fun (taken, name) => .nameTaken taken name)
    ++ [.nameGenerated scope slot g.name]

end GeneratedName

end StyleBook
