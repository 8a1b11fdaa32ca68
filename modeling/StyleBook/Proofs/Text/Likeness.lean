import Mathlib.Data.List.Forall2
import Mathlib.Data.Option.Basic
import StyleBook.Rule.Basic

namespace StyleBook

/-!
# Alike up to places

Two values may differ only in where the names of the rules stand that they mention. So may
selectors, stylesets and rules, and rules also in the scopes that groups are about.

* `Likeness` — which places and scopes correspond, and what texts may depend on otherwise;
* `Value.Alike`, `Selector.Alike`, `Styleset.Alike` — alike up to these;
* `Rule.Shows` — what is written of two rules is alike;
* `Value.Alike.eq` — nothing differs if places correspond to themselves only;
* `Rule.Shows.same` — a rule is alike to itself, if any sources may be asked.
-/

/-- What corresponds to what, and on what texts may depend. -/
structure Likeness where
  /-- The places of names that correspond. -/
  cells : Nat → Nat → Prop
  /-- The scopes that correspond. -/
  scopes : ScopeId → ScopeId → Prop
  /-- The sources that may be asked. -/
  sources : TextSource → Prop
  /-- The units in force. -/
  units : UnitTable

/-- **Places and scopes correspond to themselves only,** and any sources may be asked. -/
def Likeness.same (units : UnitTable) : Likeness := ⟨Eq, Eq, fun _ => True, units⟩

/-- Places correspond to themselves only. -/
def Likeness.Strict (L : Likeness) : Prop := ∀ a b, L.cells a b → a = b

variable {L : Likeness}

/-! ### Mentions of names -/

/-- Alike places: those of rules correspond, others are the same. -/
inductive NameCell.Alike (L : Likeness) : NameCell → NameCell → Prop
  | fixed {token name} : Alike L (.fixed token name) (.fixed token name)
  | ofRule {a b} (h : L.cells a b) : Alike L (.ofRule a) (.ofRule b)
  | empty {token} : Alike L (.empty token) (.empty token)

/-- Alike mentions: of alike places, in one form. -/
structure NameRef.Alike (L : Likeness) (a b : NameRef) : Prop where
  slot : a.slot = b.slot
  cell : a.cell.Alike L b.cell
  form : a.form = b.form

/-- Alike mentions are the same if places correspond to themselves only. -/
theorem NameRef.Alike.eq (hL : L.Strict) {a b : NameRef} (h : a.Alike L b) : a = b := by
  obtain ⟨slot, cell, form⟩ := a
  obtain ⟨slot', cell', form'⟩ := b
  obtain ⟨rfl, hcell, rfl⟩ := h
  cases hcell with
  | fixed => rfl
  | ofRule h => rw [hL _ _ h]
  | empty => rfl

/-- Alike mentions are written the same if corresponding places have the same names. -/
theorem NameRef.Alike.render {names names' : Names} {a b : NameRef} (h : a.Alike L b)
    (hnames : ∀ i j, L.cells i j → names i = names' j) : a.render names = b.render names' := by
  have hname : ∀ {c d : NameCell}, c.Alike L d → c.name? names = d.name? names' := fun h => by
    cases h with
    | fixed => rfl
    | ofRule hcell => exact hnames _ _ hcell
    | empty => rfl
  unfold NameRef.render NameRef.name?
  rw [hname h.cell, h.slot, h.form]

/-! ### Values -/

/-- Alike values. -/
inductive Value.Alike (L : Likeness) : Value → Value → Prop
  | null : Value.Alike L .null .null
  | bool {b} : Value.Alike L (.bool b) (.bool b)
  | number {x} : Value.Alike L (.number x) (.number x)
  | text {s} : Value.Alike L (.text s) (.text s)
  | list {vs ws} (h : List.Forall₂ (Value.Alike L) vs ws) : Value.Alike L (.list vs) (.list ws)
  | record {vs ws} (h : List.Forall₂ (Prod.RProd Eq (Value.Alike L)) vs ws) :
    Value.Alike L (.record vs) (.record ws)
  | call {function v w repeating} (h : Value.Alike L v w) :
    Value.Alike L (.call function v repeating) (.call function w repeating)
  | ref {a b : NameRef} (h : a.Alike L b) : Value.Alike L (.ref a) (.ref b)
  | lazy {source} (h : L.sources source) : Value.Alike L (.lazy source) (.lazy source)
  | math {id function family vs ws} (h : List.Forall₂ (Value.Alike L) vs ws) :
    Value.Alike L (.math id function family vs) (.math id function family ws)
  | custom {source} (h : L.sources source) : Value.Alike L (.custom source) (.custom source)

/-- Alike fields of records: of one name. -/
abbrev Value.FieldsAlike (L : Likeness) : List (String × Value) → List (String × Value) → Prop :=
  List.Forall₂ (Prod.RProd Eq (Value.Alike L))

namespace Value.Alike

mutual

/-- Alike values are the same if places correspond to themselves only. -/
theorem eq (hL : L.Strict) : ∀ {v w : Value}, v.Alike L w → v = w
  | _, _, .null => rfl
  | _, _, .bool => rfl
  | _, _, .number => rfl
  | _, _, .text => rfl
  | _, _, .list h => by rw [items_eq hL h]
  | _, _, .record h => by rw [fields_eq hL h]
  | _, _, .call h => by rw [eq hL h]
  | _, _, .ref h => by rw [h.eq hL]
  | _, _, .lazy _ => rfl
  | _, _, .math h => by rw [items_eq hL h]
  | _, _, .custom _ => rfl

/-- So are lists of them. -/
theorem items_eq (hL : L.Strict) :
    ∀ {vs ws : List Value}, List.Forall₂ (Value.Alike L) vs ws → vs = ws
  | _, _, .nil => rfl
  | _, _, .cons h hs => by rw [eq hL h, items_eq hL hs]

/-- So are fields. -/
theorem fields_eq (hL : L.Strict) :
    ∀ {vs ws : List (String × Value)}, Value.FieldsAlike L vs ws → vs = ws
  | _, _, .nil => rfl
  | _, _, .cons (.intro h₁ h₂) hs => by rw [h₁, eq hL h₂, fields_eq hL hs]

end

variable {v w : Value}

/-- Both are null, or neither is. -/
theorem isNull (h : v.Alike L w) : v.isNull = w.isNull := by cases h <;> rfl

/-- Both are lists, or neither is. -/
theorem isList (h : v.Alike L w) : v.isList = w.isList := by cases h <;> rfl

theorem isCompound (h : v.Alike L w) : v.isCompound = w.isCompound := by cases h <;> rfl

/-- Both are the same text, if they are texts. -/
theorem text? (h : v.Alike L w) : v.text? = w.text? := by cases h <;> rfl

/-- Both have compound items, or neither does. -/
theorem hasCompound (h : v.Alike L w) : v.hasCompound = w.hasCompound := by
  cases h with
  | @list vs ws h =>
    induction h with
    | nil => rfl
    | cons h _ ih =>
      simp only [Value.hasCompound, List.any_cons] at ih ⊢
      rw [h.isCompound, ih]
  | _ => rfl

/-- Both start with a list, or neither does. -/
theorem startsWithList (h : v.Alike L w) : v.startsWithList = w.startsWithList := by
  cases h with
  | list h =>
    cases h with
    | nil => rfl
    | cons h hs => cases h <;> rfl
  | _ => rfl

end Value.Alike

namespace Value.FieldsAlike

variable {fields fields' : List (String × Value)}

/-- Fields are looked up alike. -/
theorem get? (h : FieldsAlike L fields fields') (name : String) :
    Option.Rel (Value.Alike L) (Dict.get? name fields) (Dict.get? name fields') := by
  induction h with
  | nil => exact .none
  | @cons a b _ _ hab _ ih =>
    obtain ⟨hname, hvalue⟩ := hab
    cases hname
    unfold Dict.get?
    split
    · exact .some hvalue
    · exact ih

/-- The value of a field, or none, is alike. -/
theorem getD (h : FieldsAlike L fields fields') (name : String) :
    ((Dict.get? name fields).getD .null).Alike L ((Dict.get? name fields').getD .null) := by
  have hget := h.get? name
  generalize Dict.get? name fields = v, Dict.get? name fields' = w at hget
  cases hget with
  | none => exact .null
  | some h => exact h

/-- The text in a field is the same. -/
theorem text? (h : FieldsAlike L fields fields') (name : String) :
    (Dict.get? name fields).bind Value.text? = (Dict.get? name fields').bind Value.text? := by
  have hget := h.get? name
  generalize Dict.get? name fields = v, Dict.get? name fields' = w at hget
  cases hget with
  | none => rfl
  | some h => exact h.text?

/-- The same names are there. -/
theorem names (h : FieldsAlike L fields fields') :
    fields.map Prod.fst = fields'.map Prod.fst := by
  induction h with
  | nil => rfl
  | cons hab _ ih =>
    obtain ⟨hname, -⟩ := hab
    rw [List.map_cons, List.map_cons, ih, hname]

/-- Fields are found by their names. -/
theorem find? (h : FieldsAlike L fields fields') (p : String → Bool) :
    (fields.find? fun entry => p entry.1).map Prod.fst =
      (fields'.find? fun entry => p entry.1).map Prod.fst := by
  have hnames : ∀ fields : List (String × Value),
      (fields.find? fun entry => p entry.1).map Prod.fst = (fields.map Prod.fst).find? p :=
    fun fields => by rw [List.find?_map]; rfl
  rw [hnames, hnames, h.names]

/-- They are left out by their names. -/
theorem filter (h : FieldsAlike L fields fields') (p : String → Bool) :
    FieldsAlike L (fields.filter fun entry => p entry.1) (fields'.filter fun entry => p entry.1) :=
  List.rel_filter (fun _ _ ⟨hname, _⟩ => by simp only [hname]) h

/-- Alike items under the same names. -/
theorem zip {vs ws : List Value} (h : List.Forall₂ (Value.Alike L) vs ws) (names : List String) :
    FieldsAlike L (names.zip vs) (names.zip ws) := by
  induction h generalizing names with
  | nil => rw [List.zip_nil_right]; exact .nil
  | cons h _ ih =>
    cases names with
    | nil => exact .nil
    | cons name names => exact .cons ⟨rfl, h⟩ (ih names)

end Value.FieldsAlike

/-! ### Sheets -/

/-- Alike pieces of selectors. -/
inductive SelectorToken.Alike (L : Likeness) : SelectorToken → SelectorToken → Prop
  | text {s} : Alike L (.text s) (.text s)
  | name {a b : NameRef} (h : a.Alike L b) : Alike L (.name a) (.name b)

/-- Alike selectors. -/
def Selector.Alike (L : Likeness) (s t : Selector) : Prop :=
  List.Forall₂ (SelectorToken.Alike L) s.tokens t.tokens

/-- Alike declarations. -/
structure Declaration.Alike (L : Likeness) (a b : Declaration) : Prop where
  value : a.value.Alike L b.value
  important : a.important = b.important

/-- Alike custom properties. -/
structure CustomProperty.Alike (L : Likeness) (a b : CustomProperty) : Prop where
  name : a.name.Alike L b.name
  template : a.template = b.template
  value : a.value.Alike L b.value

/-- Alike stylesets. -/
inductive Styleset.Alike (L : Likeness) : Styleset → Styleset → Prop
  | of {ps qs cs ds ss ts} (properties : List.Forall₂ (Prod.RProd Eq (Declaration.Alike L)) ps qs)
    (custom : List.Forall₂ (CustomProperty.Alike L) cs ds)
    (dependents : List.Forall₂ (Prod.RProd (Selector.Alike L) (Styleset.Alike L)) ss ts) :
    Styleset.Alike L ⟨ps, cs, ss⟩ ⟨qs, ds, ts⟩

/-- Alike frames. -/
structure Keyframe.Alike (L : Likeness) (a b : Keyframe) : Prop where
  waypoint : a.waypoint = b.waypoint
  styleset : a.styleset.Alike L b.styleset

/-- What two rules say is alike, but for the stylesets of those that inherit. -/
inductive RuleContent.Shows (L : Likeness) : RuleContent → RuleContent → Prop
  | cls {a b} : Shows L (.cls a) (.cls b)
  | id {a b} : Shows L (.id a) (.id b)
  | tag {element a b} : Shows L (.tag element a) (.tag element b)
  | selector {s t : Selector} {a b} (h : s.Alike L t) : Shows L (.selector s a) (.selector t b)
  | animation {frames frames'} (h : List.Forall₂ (Keyframe.Alike L) frames frames') :
    Shows L (.animation frames) (.animation frames')
  | var {template} {v w : Value} (h : v.Alike L w) : Shows L (.var template v) (.var template w)
  | counter : Shows L .counter .counter
  | page {pseudo a b} : Shows L (.page pseudo a) (.page pseudo b)
  | group {condition k j} (h : L.scopes k j) : Shows L (.group condition k) (.group condition j)

/-- **What is written of two rules is alike.** -/
structure Rule.Shows (L : Likeness) (r r' : Rule) : Prop where
  content : r.content.Shows L r'.content
  slot : r.slot = r'.slot
  cell : Option.Rel L.cells r.cell r'.cell
  styleset : Option.Rel (Styleset.Alike L) r.styleset? r'.styleset?

/-! ### What is alike to itself -/

section Same

variable {units : UnitTable}

/-- A mention is alike to itself. -/
theorem NameRef.Alike.same (a : NameRef) : a.Alike (.same units) a := by
  obtain ⟨slot, cell, form⟩ := a
  refine ⟨rfl, ?_, rfl⟩
  cases cell with
  | fixed => exact .fixed
  | ofRule => exact .ofRule rfl
  | empty => exact .empty

mutual

/-- A value is alike to itself. -/
theorem Value.Alike.same : ∀ v : Value, v.Alike (.same units) v
  | .null => .null
  | .bool _ => .bool
  | .number _ => .number
  | .text _ => .text
  | .list items => .list (itemsAlike_same items)
  | .record fields => .record (fieldsAlike_same fields)
  | .call _ args _ => .call (Value.Alike.same args)
  | .ref name => .ref (.same name)
  | .lazy _ => .lazy trivial
  | .math _ _ _ operands => .math (itemsAlike_same operands)
  | .custom _ => .custom trivial

/-- So are the items of a list. -/
theorem itemsAlike_same :
    ∀ items : List Value, List.Forall₂ (Value.Alike (.same units)) items items
  | [] => .nil
  | v :: rest => .cons (Value.Alike.same v) (itemsAlike_same rest)

/-- So are the fields of a record. -/
theorem fieldsAlike_same :
    ∀ fields : List (String × Value), Value.FieldsAlike (.same units) fields fields
  | [] => .nil
  | (_, v) :: rest => .cons ⟨rfl, Value.Alike.same v⟩ (fieldsAlike_same rest)

end

/-- A selector is alike to itself. -/
theorem Selector.Alike.same (s : Selector) : s.Alike (.same units) s :=
  List.forall₂_same.mpr fun token _ => by
    cases token with
    | text => exact .text
    | name ref => exact .name (.same ref)

mutual

/-- A styleset is alike to itself. -/
theorem Styleset.Alike.same : ∀ s : Styleset, s.Alike (.same units) s
  | ⟨_, _, dependents⟩ => .of
    (List.forall₂_same.mpr fun p _ => ⟨rfl, .same p.2.value, rfl⟩)
    (List.forall₂_same.mpr fun p _ => ⟨.same p.name, rfl, .same p.value⟩)
    (dependentsAlike_same dependents)

/-- So are the stylesets of dependents. -/
theorem dependentsAlike_same : ∀ dependents : List (Selector × Styleset),
    List.Forall₂ (Prod.RProd (Selector.Alike (.same units)) (Styleset.Alike (.same units)))
      dependents dependents
  | [] => .nil
  | (s, styles) :: rest => .cons ⟨.same s, Styleset.Alike.same styles⟩ (dependentsAlike_same rest)

end

/-- **A rule is alike to itself.** -/
theorem Rule.Shows.same (rule : Rule) : rule.Shows (.same units) rule where
  -- Nothing but the mentions of a rule could differ, and these are the same.
  content := by
    obtain ⟨content, explicitName, slot, cell, merged⟩ := rule
    cases content with
    | cls => exact .cls
    | id => exact .id
    | tag => exact .tag
    | selector s => exact .selector (.same s)
    | animation frames =>
      exact .animation (List.forall₂_same.mpr fun frame _ => ⟨rfl, .same frame.styleset⟩)
    | var _ value => exact .var (.same value)
    | counter => exact .counter
    | page => exact .page
    | group => exact .group rfl
  slot := rfl
  cell := by
    cases rule.cell with
    | none => exact .none
    | some cell => exact .some rfl
  styleset := by
    cases rule.styleset? with
    | none => exact .none
    | some styles => exact .some (.same styles)

end Same

end StyleBook
