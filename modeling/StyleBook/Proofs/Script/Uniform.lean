import Mathlib.Logic.Relator
import Mathlib.Order.Defs.PartialOrder
import StyleBook.Engine.Definition
import StyleBook.Proofs.Text.Likeness

namespace StyleBook

/-!
# Scripts that do not look at places

A script gets handles from its calls, and may hand them on. If it depends on nothing but these
answers, and not on which scopes and places they are about, then it takes alike steps wherever
answers are alike. More and more corresponds while it runs.

* `Value.Alike.mono`, …, `Rule.Alike.mono` — what is alike stays so when more corresponds;
* `RuleRef.Alike`, `ScopeRefs.Alike`, `Rule.Alike` — alike handles, and rules that say alike things;
* `Script.Alike` — scripts that take alike steps, as long as they get alike
  answers and no call fails;
* `Script.Uniform` — a script is alike to itself, whatever corresponds;
* `Script.StaysIn` — a script extends and uses certain definitions only;
* `Script.Repeats` — a script says the same when it is run once more;
* `Circle`, `Family`, `Lineage` — definitions that reach each other only.
-/

/-! ### More corresponds -/

/-- **More corresponds** in the second likeness, and no less may be asked. -/
structure Likeness.Le (L L' : Likeness) : Prop where
  cells {a b} : L.cells a b → L'.cells a b
  scopes {k j} : L.scopes k j → L'.scopes k j
  sources {source} : L.sources source → L'.sources source
  units : L'.units = L.units

instance : Preorder Likeness where
  le := Likeness.Le
  le_refl _ := ⟨id, id, id, rfl⟩
  le_trans _ _ _ h h' :=
    ⟨h'.cells ∘ h.cells, h'.scopes ∘ h.scopes, h'.sources ∘ h.sources, h'.units.trans h.units⟩

/-- **No place and no scope corresponds to two.** -/
structure Likeness.Exact (L : Likeness) : Prop where
  cells : Relator.BiUnique L.cells
  scopes : Relator.BiUnique L.scopes

variable {L L' : Likeness}

/-- Cells stay alike while more places correspond. -/
theorem NameCell.Alike.mono (hL : L ≤ L') {a b : NameCell} (h : a.Alike L b) : a.Alike L' b := by
  cases h with
  | fixed => exact .fixed
  | ofRule h => exact .ofRule (hL.cells h)
  | empty => exact .empty

theorem NameRef.Alike.mono (hL : L ≤ L') {a b : NameRef} (h : a.Alike L b) : a.Alike L' b :=
  ⟨h.slot, h.cell.mono hL, h.form⟩

namespace Value.Alike

mutual

/-- Alike values stay alike. -/
theorem mono (hL : L ≤ L') : ∀ {v w : Value}, v.Alike L w → v.Alike L' w
  | _, _, .null => .null
  | _, _, .bool => .bool
  | _, _, .number => .number
  | _, _, .text => .text
  | _, _, .list h => .list (items_mono hL h)
  | _, _, .record h => .record (fields_mono hL h)
  | _, _, .call h => .call (mono hL h)
  | _, _, .ref h => .ref (h.mono hL)
  | _, _, .lazy h => .lazy (hL.sources h)
  | _, _, .math h => .math (items_mono hL h)
  | _, _, .custom h => .custom (hL.sources h)

/-- So do lists of them. -/
theorem items_mono (hL : L ≤ L') : ∀ {vs ws : List Value},
    List.Forall₂ (Value.Alike L) vs ws → List.Forall₂ (Value.Alike L') vs ws
  | _, _, .nil => .nil
  | _, _, .cons h hs => .cons (mono hL h) (items_mono hL hs)

/-- So do fields. -/
theorem fields_mono (hL : L ≤ L') : ∀ {vs ws : List (String × Value)},
    Value.FieldsAlike L vs ws → Value.FieldsAlike L' vs ws
  | _, _, .nil => .nil
  | _, _, .cons (.intro h₁ h₂) hs => .cons ⟨h₁, mono hL h₂⟩ (fields_mono hL hs)

end

end Value.Alike

theorem SelectorToken.Alike.mono (hL : L ≤ L') {s t : SelectorToken} (h : s.Alike L t) :
    s.Alike L' t := by
  cases h with
  | text => exact .text
  | name h => exact .name (h.mono hL)

theorem Selector.Alike.mono (hL : L ≤ L') {s t : Selector} (h : s.Alike L t) : s.Alike L' t :=
  List.Forall₂.imp (fun _ _ => SelectorToken.Alike.mono hL) h

theorem Declaration.Alike.mono (hL : L ≤ L') {a b : Declaration} (h : a.Alike L b) :
    a.Alike L' b := ⟨h.value.mono hL, h.important⟩

theorem CustomProperty.Alike.mono (hL : L ≤ L') {a b : CustomProperty} (h : a.Alike L b) :
    a.Alike L' b := ⟨h.name.mono hL, h.template, h.value.mono hL⟩

namespace Styleset.Alike

mutual

/-- Alike stylesets stay alike. -/
theorem mono (hL : L ≤ L') : ∀ {s t : Styleset}, s.Alike L t → s.Alike L' t
  | _, _, .of properties custom dependents => .of
    (properties.imp fun _ _ ⟨hname, h⟩ => ⟨hname, h.mono hL⟩)
    (custom.imp fun _ _ h => h.mono hL) (dependents_mono hL dependents)

/-- So do those for other selectors. -/
theorem dependents_mono (hL : L ≤ L') : ∀ {ss ts : List (Selector × Styleset)},
    List.Forall₂ (Prod.RProd (Selector.Alike L) (Styleset.Alike L)) ss ts →
      List.Forall₂ (Prod.RProd (Selector.Alike L') (Styleset.Alike L')) ss ts
  | _, _, .nil => .nil
  | _, _, .cons (.intro hselector hstyles) hs =>
    .cons ⟨hselector.mono hL, mono hL hstyles⟩ (dependents_mono hL hs)

end

end Styleset.Alike

theorem Keyframe.Alike.mono (hL : L ≤ L') {a b : Keyframe} (h : a.Alike L b) : a.Alike L' b :=
  ⟨h.waypoint, h.styleset.mono hL⟩

/-! ### Merging -/

namespace Styleset

/-- Nothing is declared in either. -/
theorem Alike.empty : Alike L .empty .empty := .of .nil .nil .nil

/-- Properties that are inserted under one name. -/
theorem insert_alike {ps qs : List (String × Declaration)}
    (h : List.Forall₂ (Prod.RProd Eq (Declaration.Alike L)) ps qs) (name : String)
    {d d' : Declaration} (hd : d.Alike L d') :
    List.Forall₂ (Prod.RProd Eq (Declaration.Alike L)) (Dict.insert name d ps)
      (Dict.insert name d' qs) := by
  induction h with
  | nil => exact .cons ⟨rfl, hd⟩ .nil
  | @cons p q _ _ hpq hrest ih =>
    have hentry := hpq
    obtain ⟨hname, -⟩ := hpq
    cases hname
    unfold Dict.insert
    split
    · exact .cons ⟨rfl, hd⟩ hrest
    · exact .cons hentry ih

/-- **One styleset over another,** on both sides. -/
theorem Alike.merge {s t source source' : Styleset} (h : s.Alike L t)
    (hsource : source.Alike L source') : (s.merge source).Alike L (t.merge source') := by
  obtain @⟨ps, qs, _, _, _, _, hps, hcs, hds⟩ := h
  obtain ⟨hps', hcs', hds'⟩ := hsource
  refine .of ?_ (List.rel_append hcs hcs') (List.rel_append hds hds')
  dsimp only
  clear hcs hcs' hds hds'
  induction hps' generalizing ps qs with
  | nil => exact hps
  | @cons p q _ _ hpq _ ih =>
    obtain ⟨hname, hd⟩ := hpq
    cases hname
    exact ih (insert_alike hps _ hd)

end Styleset

/-! ### Handles and rules -/

/-- **Alike handles:** of rules at the same place in corresponding scopes, whose names stand in
    corresponding places. -/
structure RuleRef.Alike (L : Likeness) (r r' : RuleRef) : Prop where
  scope : L.scopes r.scope r'.scope
  key : r.key = r'.key
  kind : r.kind = r'.kind
  slot : r.slot = r'.slot
  cell : r.cell.Alike L r'.cell
  template : r.template = r'.template

/-- So do handles. -/
theorem RuleRef.Alike.mono (hL : L ≤ L') {r r' : RuleRef} (h : r.Alike L r') : r.Alike L' r' :=
  ⟨hL.scopes h.scope, h.key, h.kind, h.slot, h.cell.mono hL, h.template⟩

/-- Alike handles under the same slots. -/
structure ScopeRefs.Alike (L : Likeness) (refs refs' : ScopeRefs) : Prop where
  scope : L.scopes refs.scope refs'.scope
  name : refs.name = refs'.name
  rules : List.Forall₂ (Prod.RProd Eq (RuleRef.Alike L)) refs.rules refs'.rules

/-- Alike stylesets with alike parents. -/
structure StyleBody.Alike (L : Likeness) (b b' : StyleBody) : Prop where
  styleset : b.styleset.Alike L b'.styleset
  parents : List.Forall₂ (RuleRef.Alike L) b.parents b'.parents

/-- So do bodies of rules. -/
theorem StyleBody.Alike.mono (hL : L ≤ L') {b b' : StyleBody} (h : b.Alike L b') : b.Alike L' b' :=
  ⟨h.styleset.mono hL, h.parents.imp fun _ _ h => h.mono hL⟩

/-- Rules that say alike things. -/
inductive RuleContent.Alike (L : Likeness) : RuleContent → RuleContent → Prop
  | cls {a b : StyleBody} (h : a.Alike L b) : Alike L (.cls a) (.cls b)
  | id {a b : StyleBody} (h : a.Alike L b) : Alike L (.id a) (.id b)
  | tag {element} {a b : StyleBody} (h : a.Alike L b) : Alike L (.tag element a) (.tag element b)
  | selector {s t : Selector} {a b : StyleBody} (hs : s.Alike L t) (h : a.Alike L b) :
    Alike L (.selector s a) (.selector t b)
  | animation {frames frames'} (h : List.Forall₂ (Keyframe.Alike L) frames frames') :
    Alike L (.animation frames) (.animation frames')
  | var {template} {v w : Value} (h : v.Alike L w) : Alike L (.var template v) (.var template w)
  | counter : Alike L .counter .counter
  | page {pseudo} {a b : StyleBody} (h : a.Alike L b) : Alike L (.page pseudo a) (.page pseudo b)
  | group {condition k j} (h : L.scopes k j) : Alike L (.group condition k) (.group condition j)

namespace RuleContent.Alike

variable {c c' : RuleContent}

theorem mono (hL : L ≤ L') (h : c.Alike L c') : c.Alike L' c' := by
  cases h with
  | cls h => exact .cls (h.mono hL)
  | id h => exact .id (h.mono hL)
  | tag h => exact .tag (h.mono hL)
  | selector hs h => exact .selector (hs.mono hL) (h.mono hL)
  | animation h => exact .animation (h.imp fun _ _ h => h.mono hL)
  | var h => exact .var (h.mono hL)
  | counter => exact .counter
  | page h => exact .page (h.mono hL)
  | group h => exact .group (hL.scopes h)

theorem kind (h : c.Alike L c') : c.kind = c'.kind := by cases h <;> rfl

theorem template? (h : c.Alike L c') : c.template? = c'.template? := by cases h <;> rfl

/-- Both have a styleset, or neither. -/
theorem body? (h : c.Alike L c') : Option.Rel (StyleBody.Alike L) c.body? c'.body? := by
  cases h with
  | cls h | id h | tag h | selector _ h | page h => exact .some h
  | animation | var | counter | group => exact .none

/-- What is written of both is alike. -/
theorem shows (h : c.Alike L c') : c.Shows L c' := by
  cases h with
  | cls => exact .cls
  | id => exact .id
  | tag => exact .tag
  | selector hs => exact .selector hs
  | animation h => exact .animation h
  | var h => exact .var h
  | counter => exact .counter
  | page => exact .page
  | group h => exact .group h

end RuleContent.Alike

/-- **Rules that are declared alike:** they say alike things, under the same
    slot and the same name. -/
structure Rule.Alike (L : Likeness) (r r' : Rule) : Prop where
  content : r.content.Alike L r'.content
  explicitName : r.explicitName = r'.explicitName
  slot : r.slot = r'.slot

/-- So do rules. -/
theorem Rule.Alike.mono (hL : L ≤ L') {r r' : Rule} (h : r.Alike L r') : r.Alike L' r' :=
  ⟨h.content.mono hL, h.explicitName, h.slot⟩

/-! ### Scripts -/

namespace Script

variable {μ : Type}

/-- **Scripts that take alike steps,** as long as they get alike answers and no call of theirs
    fails. More may correspond when an answer comes back, but nothing to two things: a script may
    compare what it gets. The memory is not looked at, and what is reported does not matter. -/
inductive Alike : Likeness → Script μ → Script μ → Prop
  | done {L : Likeness} : Alike L .done .done
  | fail {L : Likeness} {err err'} : Alike L (.fail err) (.fail err')
  | add {L : Likeness} {slot next next'} {rule rule' : Rule} (h : rule.Alike L rule')
    (hnext : ∀ {L'}, L ≤ L' → L'.Exact → ∀ {r r' : RuleRef}, r.Alike L' r' →
      Alike L' (next r) (next' r')) :
    Alike L (.add slot rule next) (.add slot rule' next')
  | addUnnamed {L : Likeness} {next next'} {rule rule' : Rule} (h : rule.Alike L rule')
    (hnext : ∀ {L'}, L ≤ L' → L'.Exact → ∀ {r r' : RuleRef}, r.Alike L' r' →
      Alike L' (next r) (next' r')) :
    Alike L (.addUnnamed rule next) (.addUnnamed rule' next')
  | find {L : Likeness} {slot next next'}
    (hnext : ∀ {r r'}, Option.Rel (RuleRef.Alike L) r r' → Alike L (next r) (next' r')) :
    Alike L (.find slot next) (.find slot next')
  | scope {L : Likeness} {next next'} (hnext : ∀ {k j}, L.scopes k j → Alike L (next k) (next' j)) :
    Alike L (.scope next) (.scope next')
  | extend {L : Likeness} {definition next next'}
    (hnext : ∀ {L'}, L ≤ L' → L'.Exact → ∀ {k j}, L'.scopes k j →
      Alike L' (next (.ok k)) (next' (.ok j))) :
    Alike L (.extend definition next) (.extend definition next')
  | use {L : Likeness} {definition next next'}
    (hnext : ∀ {L'}, L ≤ L' → L'.Exact → ∀ {refs refs' : ScopeRefs}, refs.Alike L' refs' →
      Alike L' (next (.ok refs)) (next' (.ok refs'))) :
    Alike L (.use definition next) (.use definition next')
  | group {L : Likeness} {condition body body' next next'}
      (hbody : ∀ {L'}, L ≤ L' → L'.Exact → Alike L' body body')
    (hnext : ∀ {L'}, L ≤ L' → L'.Exact → ∀ {r r' : RuleRef}, r.Alike L' r' →
      Alike L' (next (.ok r)) (next' (.ok r'))) :
    Alike L (.group condition body next) (.group condition body' next')
  | nameOf {L : Likeness} {next next'} {cell cell' : NameCell} (h : cell.Alike L cell')
    (hnext : ∀ name, Alike L (next name) (next' name)) :
    Alike L (.nameOf cell next) (.nameOf cell' next')
  | report {L : Likeness} {event event' next next'} (hnext : Alike L next next') :
    Alike L (.report event next) (.report event' next')
  | remember {L : Likeness} {change change' next next'} (hnext : Alike L next next') :
    Alike L (.remember change next) (.remember change' next')

/-- **The script depends only on what its calls return,** and not on which scopes and places they
    are about: it is alike to itself, whatever corresponds to what. -/
def Uniform (script : Script μ) : Prop :=
  ∀ L : Likeness, L.Exact → (∀ source, L.sources source) → script.Alike L script

/-- **The script extends and uses only these definitions,** as long as no call of it fails. -/
def StaysIn (keys : Nat → Prop) : Script μ → Prop
  | .done | .fail _ => True
  | .add _ _ next | .addUnnamed _ next => ∀ r, (next r).StaysIn keys
  | .find _ next => ∀ r, (next r).StaysIn keys
  | .scope next => ∀ id, (next id).StaysIn keys
  | .extend definition next => keys definition ∧ ∀ base, (next (.ok base)).StaysIn keys
  | .use definition next => keys definition ∧ ∀ refs, (next (.ok refs)).StaysIn keys
  | .group _ body next => body.StaysIn keys ∧ ∀ r, (next (.ok r)).StaysIn keys
  | .nameOf _ next => ∀ name, (next name).StaysIn keys
  | .report _ next | .remember _ next => next.StaysIn keys
  | .look next => ∀ memory, (next memory).StaysIn keys

/-- **The script says the same once more:** it extends only certain definitions, uses none that gets
    a new scope every time, and declares no rules without a slot that have one, as clones of others
    do. So it is as long as no call of it fails. -/
def Repeats (library : Library μ) (line : Nat → Prop) : Script μ → Prop
  | .done | .fail _ => True
  | .add _ _ next => ∀ r, (next r).Repeats library line
  | .addUnnamed rule next => rule.slot = none ∧ ∀ r, (next r).Repeats library line
  | .find _ next => ∀ r, (next r).Repeats library line
  | .scope next => ∀ id, (next id).Repeats library line
  | .extend definition next => line definition ∧ ∀ base, (next (.ok base)).Repeats library line
  | .use definition next =>
    (library definition).multiplex = false ∧ ∀ refs, (next (.ok refs)).Repeats library line
  | .group _ body next => body.Repeats library line ∧ ∀ r, (next (.ok r)).Repeats library line
  | .nameOf _ next => ∀ name, (next name).Repeats library line
  | .report _ next | .remember _ next => next.Repeats library line
  | .look next => ∀ memory, (next memory).Repeats library line

end Script

/-- **Definitions that reach each other only,** and each other only through their calls. -/
structure Circle {μ : Type} (library : Library μ) (keys : Nat → Prop) : Prop where
  key {k} : keys k → (library k).key = k
  uniform {k} : keys k → (library k).script.Uniform
  stays {k} : keys k → (library k).script.StaysIn keys

/-- **A circle of definitions with a scope each,** which is called like no other one. -/
structure Family {μ : Type} (library : Library μ) (keys : Nat → Prop) : Prop
    extends Circle library keys where
  single {k} : keys k → (library k).multiplex = false
  scopeName_inj {k k'} : keys k → keys k' → (library k).scopeName = (library k').scopeName → k = k'

/-- **Definitions of a circle that say the same once more,** and extend each other only. Each has
    one scope. -/
structure Lineage {μ : Type} (library : Library μ) (keys line : Nat → Prop) : Prop where
  keys {d} : line d → keys d
  single {d} : line d → (library d).multiplex = false
  repeats {d} : line d → (library d).script.Repeats library line

end StyleBook
