import StyleBook.Proofs.Name.SlotNames
import StyleBook.Proofs.Script.FailedDefinitions
import StyleBook.Proofs.Script.Stepwise

namespace StyleBook

/-!
# Handles that were taken earlier

A handle knows its scope, its key, its slot and the place of its name, and none of these changes
when the slot is declared again. It also knows the kind of its rule, and what its values are written
like: both are those of the rule for which the handle was taken.

* `RuleRef.Agrees` — handles of one rule; what follows for values and custom properties;
* `Scope.Anchored`, `Engine.anchored_stepwise` — what declaring again keeps,
  and that nothing takes it;
* `Spot.During` — where scripts stand while an engine serves a call;
* `Run.handles_agree` — what an earlier handle has in common with one that is taken now;
* `handle_outdated` — a handle that writes another value than one that is taken later.
-/

namespace RuleRef

/-- **Handles of one rule.** They can differ in what the rule was like when they were taken. -/
structure Agrees (old now : RuleRef) : Prop where
  scope : now.scope = old.scope
  key : now.key = old.key
  slot : now.slot = old.slot
  cell : now.cell = old.cell

namespace Agrees

variable {old now : RuleRef}

/-- They are mentioned alike, in every form. -/
theorem nameRef (h : old.Agrees now) (form : NameForm) : now.nameRef form = old.nameRef form := by
  unfold RuleRef.nameRef
  rw [h.slot, h.cell]

/-- They are the same if the rule is of the same kind, and its values are written alike. -/
theorem eq_iff (h : old.Agrees now) :
    now = old ↔ now.kind = old.kind ∧ now.template = old.template := by
  constructor
  · rintro rfl
    exact ⟨rfl, rfl⟩
  · rintro ⟨hkind, htemplate⟩
    obtain ⟨hscope, hkey, hslot, hcell⟩ := h
    cases old
    cases now
    simp_all

/-- They are the same value if both are handles of custom properties, or neither is. -/
theorem value_eq_iff (h : old.Agrees now) :
    now.value = old.value ↔ (now.kind = .var ↔ old.kind = .var) := by
  have hforms : ∀ a b : RuleKind, a.valueForm = b.valueForm ↔ (a = .var ↔ b = .var) := by
    intro a b
    cases a <;> cases b <;> decide
  rw [← hforms now.kind old.kind]
  constructor
  · intro heq
    have href : now.nameRef now.kind.valueForm = old.nameRef old.kind.valueForm := Value.ref.inj heq
    exact congrArg NameRef.form href
  · intro hform
    unfold value
    rw [h.nameRef, hform]

/-- They make the same custom property if the values of their rules are written alike. -/
theorem customOf_eq_iff (h : old.Agrees now) (value : Value) (styles : Styleset) :
    styles.customOf now value = styles.customOf old value ↔ now.template = old.template := by
  unfold Styleset.customOf
  rw [h.nameRef]
  constructor
  · intro heq
    have hcustom : styles.custom ++ [⟨old.nameRef .customProperty, now.template, value⟩] =
        styles.custom ++ [⟨old.nameRef .customProperty, old.template, value⟩] :=
      congrArg Styleset.custom heq
    have hlast := List.append_cancel_left hcustom
    injection hlast with hlast
    exact congrArg CustomProperty.template hlast
  · intro htemplate
    rw [htemplate]

end Agrees

end RuleRef

/-! ### What declaring again keeps -/

namespace Scope

/-- Slots keep the keys of their rules, and rules keep the places of their names. -/
structure Anchored (s s' : Scope) : Prop where
  named {slot : String} {key : Nat} : s.named.get? slot = some key → s'.named.get? slot = some key
  cell {key : Nat} {r : Rule} :
    s.rules[key]? = some r → ∃ r', s'.rules[key]? = some r' ∧ r'.cell = r.cell

instance : IsPreorder Scope Anchored where
  refl _ := ⟨id, fun hr => ⟨_, hr, rfl⟩⟩
  trans _ _ _ h h' :=
    { named := h'.named ∘ h.named
      cell := fun hr => by
        obtain ⟨r', hr', hcell⟩ := h.cell hr
        obtain ⟨r'', hr'', hcell'⟩ := h'.cell hr'
        exact ⟨r'', hr'', hcell'.trans hcell⟩ }

variable {s s' : Scope} {slot : String} {rule : Rule}

namespace Anchored

/-- A change that is not about rules. -/
theorem of_rules (hrules : s'.rules = s.rules) (hnamed : s'.named = s.named) : Anchored s s' :=
  ⟨fun hslot => hnamed ▸ hslot, fun hr => ⟨_, hrules ▸ hr, rfl⟩⟩

/-- One more rule under a slot that had none. -/
theorem withNamed (hnew : s.named.get? slot = none) (rule : Rule) :
    Anchored s (s.withNamed slot rule) where
  named {slot' key} hkey := by
    have hne : slot' ≠ slot := by
      rintro rfl
      cases hnew.symm.trans hkey
    exact (Dict.get?_insert_of_ne hne _ _).trans hkey
  cell {key r} hr := by
    refine ⟨r, ?_, rfl⟩
    show (s.rules ++ [rule])[key]? = some r
    rw [List.getElem?_append_left (List.getElem?_eq_some_iff.mp hr).1, hr]

/-- One more rule without a slot. -/
theorem withUnnamed (s : Scope) (rule : Rule) : Anchored s (s.withUnnamed rule) where
  named := id
  cell {key r} hr := by
    refine ⟨r, ?_, rfl⟩
    show (s.rules ++ [rule])[key]? = some r
    rw [List.getElem?_append_left (List.getElem?_eq_some_iff.mp hr).1, hr]

/-- Another rule takes over the place of a name. -/
theorem setRule {key : Nat} (hcell : rule.cell = (s.rule? key).bind (·.cell)) :
    Anchored s (s.setRule key rule) where
  named := id
  cell {key' r} hr := by
    show ∃ r', (s.rules.set key rule)[key']? = some r' ∧ r'.cell = r.cell
    rw [List.getElem?_set]
    split
    · next heq =>
      subst heq
      refine ⟨rule, if_pos (List.getElem?_eq_some_iff.mp hr).1, ?_⟩
      rw [hcell]
      unfold rule?
      rw [hr]
      rfl
    · exact ⟨r, hr, rfl⟩

end Anchored

end Scope

namespace Engine

variable {e e' : Engine} {id : ScopeId} {roots : List ScopeId} {slot : String} {old : RuleRef}

/-- All scopes are there, with the keys of slots and the places of names. -/
abbrev Anchors : Engine → Engine → Prop := Carries fun _ => Scope.Anchored

theorem addRule_anchors (id : ScopeId) (slot : String) (rule : Rule) (e : Engine) :
    Anchors e (addRule id slot rule e).2 := by
  -- A free slot gets a rule behind the others, a taken one keeps its place and its cell.
  cases hs : e.scope? id with
  | none =>
    unfold addRule
    rw [stateful_bind_error (requireScope_none hs)]
    exact .refl e
  | some s =>
    cases hslot : s.named.get? slot with
    | none =>
      rw [addRule_new hs hslot]
      have hcell : Anchors e e.newCell.2 := .rescoped (rescoped_newCell e) fun _ _ _ hR => hR
      refine hcell.trans (.rescoped (.modifyScope fun t ht => ?_) fun _ _ _ hR => hR)
      cases hs.symm.trans ht
      exact .withNamed hslot _
    | some key =>
      rw [addRule_known hs hslot]
      refine .rescoped ((Rescoped.modifyScope fun t ht => ?_).trans (.report _)) fun _ _ _ hR => hR
      cases hs.symm.trans ht
      exact .setRule rfl

theorem addUnnamedRule_anchors (id : ScopeId) (rule : Rule) (e : Engine) :
    Anchors e (addUnnamedRule id rule e).2 := by
  cases hs : e.scope? id with
  | none =>
    unfold addUnnamedRule
    rw [stateful_bind_error (requireScope_none hs)]
    exact .refl e
  | some s =>
    rw [addUnnamedRule_eq hs]
    have hcell : Anchors e e.newCell.2 := .rescoped (rescoped_newCell e) fun _ _ _ hR => hR
    exact hcell.trans (.rescoped (.modifyScope fun t _ => .withUnnamed t _) fun _ _ _ hR => hR)

/-- Processing keeps the keys of slots and the places of names. -/
theorem processScope_anchored (id : ScopeId) (e : Engine) :
    Rescoped (fun _ => Scope.Anchored) e (processScope id e).2 := by
  refine processWithin_steps (fun id key e => ?_) (fun id key e => ?_)
    (fun _ _ => .modifyScope fun _ _ => .of_rules rfl rfl)
    (fun _ _ => .modifyScope fun _ _ => .of_rules rfl rfl) (fun event _ => .report event)
    e.walkLimit id e
  · exact (assignName_renamed id key e).mono fun _ _ _ _ hR =>
      .of_rules hR.rules (by rw [hR.eq_names])
  · refine (mergeAt_remerged id key e).mono fun _ s s' _ hR => ⟨fun hslot => ?_, fun hr => ?_⟩
    · rw [hR.eq_rules]
      exact hslot
    · obtain ⟨r', hr', hmerged⟩ := hR.rule hr
      refine ⟨r', hr', ?_⟩
      rcases hmerged with rfl | ⟨-, -, m, rfl⟩ <;> rfl

/-- **Slots keep the keys of their rules, and rules keep the places of their names,** whatever is
    built. -/
theorem anchored_stepwise : Stepwise (fun _ => Anchors) (fun _ _ => Anchors) := by
  refine carries_stepwise ?_ (fun _ _ _ _ _ hR => hR) fun {id _ e} _ =>
    .rescoped (processScope_anchored id e) fun _ _ _ hR => hR
  exact
    { refl := .refl _
      trans := .trans
      report := fun event => .rescoped (.report event) fun _ _ _ hR => hR
      addRule := fun _ _ slot rule => addRule_anchors _ slot rule _
      addUnnamedRule := fun _ _ rule => addUnnamedRule_anchors _ rule _
      setBase := fun _ _ _ _ =>
        .rescoped (.modifyScope fun _ _ => .of_rules rfl rfl) fun _ _ _ hR => hR
      addReference := fun {_ _ _ _ _} _ _ _ =>
        .rescoped (addReference_referenced _ _ _) fun _ _ _ hR =>
          .of_rules hR.rules (by rw [hR.eq_references])
      process := fun _ _ h => h
      declare := fun h => h
      group := fun hs _ h => .trans (.nested hs.linked fun _ _ => .of_rules rfl rfl) h }

/-! ### Handles of slots -/

/-- The rule and the key of a slot, of which there is a handle. -/
theorem findRule_eq_some : e.findRule id slot = some old ↔ ∃ s key rule,
    e.scope? id = some s ∧ s.named.get? slot = some key ∧ s.rules[key]? = some rule ∧
      old = Scope.refOf id key rule := by
  unfold findRule
  constructor
  · intro h
    obtain ⟨key, hkey, href⟩ := Option.bind_eq_some_iff.mp h
    obtain ⟨s, hs, hslot⟩ := Option.bind_eq_some_iff.mp hkey
    obtain ⟨rule, hrule, rfl⟩ := Option.map_eq_some_iff.mp href
    obtain ⟨t, ht, hr⟩ := rule?_eq_some_iff.mp hrule
    cases hs.symm.trans ht
    exact ⟨s, key, rule, hs, hslot, hr, rfl⟩
  · rintro ⟨s, key, rule, hs, hslot, hr, rfl⟩
    refine Option.bind_eq_some_iff.mpr ⟨key, Option.bind_eq_some_iff.mpr ⟨s, hs, hslot⟩, ?_⟩
    exact Option.map_eq_some_iff.mpr ⟨rule, rule?_eq_some_iff.mpr ⟨s, hs, hr⟩, rfl⟩

/-- **The handle that a declaration returns is the one that is found from then on.** -/
theorem findRule_addRule {rule : Rule} (h : addRule id slot rule e = (.ok old, e'))
    (hslotted : Slotted e) : e'.findRule id slot = some old := by
  cases hs : e.scope? id with
  | none =>
    unfold addRule at h
    rw [stateful_bind_error (requireScope_none hs)] at h
    cases h
  | some s =>
    -- Finding a slot again leads to the rule that was just put under it.
    refine findRule_eq_some.mpr ?_
    cases hslot : s.named.get? slot with
    | none =>
      rw [addRule_new hs hslot] at h
      cases h
      refine ⟨_, s.rules.length, _, scope?_modifyScope_self (e := e.newCell.2) _ hs,
        Dict.get?_insert_self _ _ _, ?_, rfl⟩
      exact List.getElem?_concat_length
    | some key =>
      rw [addRule_known hs hslot] at h
      cases h
      obtain ⟨r, hr, -⟩ := (hslotted id s hs).named hslot
      refine ⟨_, key, _, scope?_modifyScope_self _ hs, hslot, ?_, rfl⟩
      exact List.getElem?_set_self (List.getElem?_eq_some_iff.mp hr).1

/-- **Declaring a slot again** returns the handle of its rule, with the kind of the new rule. -/
theorem addRule_again (h : e.findRule id slot = some old) (hslotted : Slotted e) (rule : Rule) :
    ∃ e', addRule id slot rule e =
      (.ok { old with kind := rule.kind, template := rule.content.template? }, e') := by
  obtain ⟨s, key, r, hs, hslot, hr, rfl⟩ := findRule_eq_some.mp h
  obtain ⟨r', hr', hslot'⟩ := (hslotted id s hs).named hslot
  cases hr.symm.trans hr'
  have hcell : (s.rule? key).bind (·.cell) = r.cell := by
    unfold Scope.rule?
    rw [hr]
    rfl
  have hsame : Scope.refOf id key { rule with slot := some slot, cell := r.cell, merged := none } =
      { Scope.refOf id key r with kind := rule.kind, template := rule.content.template? } := by
    unfold Scope.refOf
    rw [hslot']
    rfl
  rw [addRule_known hs hslot rule, hcell, hsame]
  exact ⟨_, rfl⟩

/-- **A handle of a slot stays one,** as far as it is not about the kind of the rule. -/
theorem Anchors.agrees (h : Anchors e e') (hslotted : Slotted e) (hslotted' : Slotted e')
    (hold : e.findRule id slot = some old) :
    ∃ now, e'.findRule id slot = some now ∧ old.Agrees now := by
  obtain ⟨s, key, r, hs, hslot, hr, rfl⟩ := findRule_eq_some.mp hold
  obtain ⟨s', hs', hanchored⟩ := h id s hs
  obtain ⟨r', hr', hcell⟩ := hanchored.cell hr
  have hkey := hanchored.named hslot
  have hnow := findRule_eq_some.mpr ⟨s', key, r', hs', hkey, hr', rfl⟩
  refine ⟨_, hnow, rfl, rfl, ?_, ?_⟩
  · -- Both rules know the slot under which they are found.
    obtain ⟨t, ht, htslot⟩ := (hslotted id s hs).named hslot
    obtain ⟨t', ht', htslot'⟩ := (hslotted' id s' hs').named hkey
    cases hr.symm.trans ht
    cases hr'.symm.trans ht'
    unfold Scope.refOf
    rw [htslot, htslot']
  · unfold Scope.refOf
    rw [hcell]

end Engine

/-! ### While a call is served -/

variable {μ : Type} {library : Library μ}

namespace Spot

open BuildM
open Engine hiding onEngine changeEngine

/-- **Where scripts stand while an engine serves a call:** a definition gets a scope, its script
    goes on, and it comes to another definition that has none yet. -/
inductive During (library : Library μ) (s : Engine × μ) : Spot μ → Prop
  /-- The definition of the call. -/
  | call {a : Attempt μ} (h : a.state = s) : During library s a.start
  /-- The next step, or the start of a group or of an extended definition. -/
  | next {p q : Spot μ} (h : During library s p) (hnext : Next library p q) : During library s q
  /-- A definition that the script reaches. -/
  | reached {p : Spot μ} {a : Attempt μ} (h : During library s p) (ha : p.Attempts library a) :
    During library s a.start

variable {s : Engine × μ} {p q : Spot μ} {slot : String} {old : RuleRef}

/-- A definition that is reached finds the state of the script that reaches it. -/
theorem Attempts.state_eq {a : Attempt μ} (h : p.Attempts library a) : a.state = p.state := by
  cases h <;> rfl

/-- A script that stands somewhere declares in a scope of a definition that declares, and rules are
    found under their slots there. -/
theorem During.placed (h : During library s p) (hs : Sound [] s.1) (hslotted : Slotted s.1) :
    (∃ root roots, p.Placed root roots) ∧ Slotted p.state.1 := by
  induction h with
  | @call a ha =>
    subst ha
    exact ⟨⟨_, _, Attempt.placed hs⟩, hslotted.opened a.definition⟩
  | next _ hnext ih =>
    obtain ⟨⟨root, roots, hp⟩, hp'⟩ := ih
    obtain ⟨hq, hkeeps⟩ := hnext.across slotted_stepwise hp
    exact ⟨⟨root, roots, hq⟩, hkeeps hp'⟩
  | @reached p a _ ha ih =>
    obtain ⟨⟨root, roots, hp⟩, hp'⟩ := ih
    have hstate : a.state = p.state := ha.state_eq
    refine ⟨⟨_, root :: roots, Attempt.placed (hstate ▸ hp.sound)⟩, ?_⟩
    show Slotted (opened a.definition a.state.1)
    rw [hstate]
    exact hp'.opened a.definition

/-- **The script gets a handle of a slot:** it declares the slot, or asks for its rule. -/
inductive Takes (library : Library μ) (slot : String) : Spot μ → RuleRef → Spot μ → Prop
  | declared {limit rule next b s r s'}
    (h : onEngine (addRule b.scope slot rule) s = some (.ok r, s')) :
    Takes library slot ⟨limit, .add slot rule next, b, s⟩ r ⟨limit, next r, b, s'⟩
  | found {limit next b s r} (h : s.1.findRule b.scope slot = some r) :
    Takes library slot ⟨limit, .find slot next, b, s⟩ r ⟨limit, next (some r), b, s⟩

/-- Then it stands behind that step, and the handle is the one that is found there. -/
theorem Takes.found_next (h : Takes library slot p old q) (hslotted : Slotted p.state.1) :
    Next library p q ∧ q.builder = p.builder ∧
      q.state.1.findRule q.builder.scope slot = some old := by
  cases h with
  | @declared limit rule next b s r s' h =>
    refine ⟨.add h, rfl, ?_⟩
    rw [BuildM.onEngine_apply] at h
    injection h with h
    obtain ⟨hok, rfl⟩ := Prod.mk.inj h
    exact findRule_addRule (Prod.ext hok rfl) hslotted
  | @found limit next b s r h =>
    have hnext : Next library ⟨limit, .find slot next, b, s⟩
        ⟨limit, next (s.1.findRule b.scope slot), b, s⟩ := .find
    rw [h] at hnext
    exact ⟨hnext, rfl, h⟩

end Spot

open Engine hiding onEngine changeEngine

variable {naming : NamingConfig} {catalog : Catalog} {ambient : Ambient} {memory : μ}

/-- **Handles of one slot agree, whenever they are taken.** While an engine serves a call, after any
    calls, a script gets a handle of a slot; at any later time when it declares in the same scope,
    the handle of the slot has the same scope, key, slot and place of the name, so every mention of
    the name is the same. It is the same handle if the rule is of the same kind and its values are
    written alike; it is the same value if both rules are custom properties or neither is; and it
    makes the same custom properties if the values of both rules are written alike. Declaring the
    slot again changes nothing of the handle but these two. -/
theorem Run.handles_agree {s : Engine × μ} {steps : List (Request μ × Answer)}
    (h : Run library (create naming catalog ambient, memory) steps s) {p p' q : Spot μ}
    {slot : String} {old : RuleRef} (hp : p.During library s)
    (htakes : Spot.Takes library slot p old p') (hlater : Spot.Later library p' q)
    (hscope : q.builder.scope = p.builder.scope) :
    ∃ now, q.state.1.findRule q.builder.scope slot = some now ∧
      (now.scope = old.scope ∧ now.key = old.key ∧ now.slot = old.slot ∧ now.cell = old.cell) ∧
      (∀ form, now.nameRef form = old.nameRef form) ∧
      (now = old ↔ now.kind = old.kind ∧ now.template = old.template) ∧
      (now.value = old.value ↔ (now.kind = .var ↔ old.kind = .var)) ∧
      (∀ (value : Value) (styles : Styleset),
        styles.customOf now value = styles.customOf old value ↔
        now.template = old.template) ∧
      ∀ rule : Rule, ∃ e', addRule q.builder.scope slot rule q.state.1 =
        (.ok { old with kind := rule.kind, template := rule.content.template? }, e') := by
  -- The first handle is found in a sound engine; anchors say what later declarations leave of it.
  have hs := h.sound (sound_create naming catalog ambient)
  obtain ⟨⟨root, roots, hplaced⟩, hslotted⟩ := hp.placed hs h.labelled.2
  obtain ⟨hnext, hbuilder, hfound⟩ := htakes.found_next hslotted
  obtain ⟨hplaced', hkeeps⟩ := hnext.across slotted_stepwise hplaced
  obtain ⟨-, hanchors⟩ := hlater.across anchored_stepwise hplaced'
  obtain ⟨-, hkeeps'⟩ := hlater.across slotted_stepwise hplaced'
  rw [hbuilder, ← hscope] at hfound
  have hslotted' := hkeeps' (hkeeps hslotted)
  obtain ⟨now, hnow, hagrees⟩ := hanchors.agrees (hkeeps hslotted) hslotted' hfound
  refine ⟨now, hnow, ⟨hagrees.scope, hagrees.key, hagrees.slot, hagrees.cell⟩, hagrees.nameRef,
    hagrees.eq_iff, hagrees.value_eq_iff, hagrees.customOf_eq_iff, fun rule => ?_⟩
  -- Declaring once more, at the later time, gives a handle with the same place.
  obtain ⟨e', hadd⟩ := addRule_again hnow hslotted' rule
  refine ⟨e', hadd.trans ?_⟩
  rw [hagrees.scope, hagrees.key, hagrees.slot, hagrees.cell]

/-! ### A slot that is declared again -/

/-- A custom property whose values are written like colors. -/
def tintRule : Rule := .var (some "color") (.text "red")

/-- A library of a definition that declares a class, and then a custom property under the same slot.
    It remembers the handle that the first declaration returned, and the one
    that is found at last. -/
def tintLibrary : Library (List RuleRef) := fun key =>
  ⟨key, "Card", "card", false, .add "tint" (.cls .empty) fun old => .add "tint" tintRule fun _ =>
    .find "tint" fun now => .remember (fun _ => old :: now.toList) .done⟩

/-- The first handle of the sample has its place in common with the last one, and not its kind. -/
theorem handles_of_tint : ∃ (p p' q : Spot (List RuleRef)) (old now : RuleRef),
    p.During tintLibrary (create {} .empty .initial, []) ∧
      Spot.Takes tintLibrary "tint" p old p' ∧ Spot.Later tintLibrary p' q ∧
      q.builder.scope = p.builder.scope ∧ old.kind = .cls ∧ now.kind = .var ∧
      q.state.1.findRule q.builder.scope "tint" = some now ∧
      (now.scope = old.scope ∧ now.key = old.key ∧ now.slot = old.slot ∧ now.cell = old.cell) ∧
      ∀ form, now.nameRef form = old.nameRef form := by
  let a : Attempt (List RuleRef) := ⟨1, tintLibrary 0, (create {} .empty .initial, [])⟩
  let old : RuleRef := ⟨1, 0, .cls, "tint", .ofRule 0, none⟩
  let now : RuleRef := ⟨1, 0, .var, "tint", .ofRule 0, some "color"⟩
  let e₁ := (addRule 1 "tint" (.cls .empty) a.start.state.1).2
  let e₂ := (addRule 1 "tint" tintRule e₁).2
  have h₁ : BuildM.onEngine (addRule 1 "tint" (.cls .empty)) a.start.state =
    some (.ok old, (e₁, [])) := rfl
  have h₂ : BuildM.onEngine (addRule 1 "tint" tintRule) (e₁, ([] : List RuleRef)) =
    some (.ok now, (e₂, [])) := rfl
  have htakes : Spot.Takes tintLibrary "tint" a.start old
      ⟨1, .add "tint" tintRule fun _ => .find "tint" fun now =>
        .remember (fun _ => old :: now.toList) .done, ⟨1, 0⟩, (e₁, [])⟩ := .declared h₁
  have hlater : Spot.Later tintLibrary
      ⟨1, .add "tint" tintRule fun _ => .find "tint" fun now =>
        .remember (fun _ => old :: now.toList) .done, ⟨1, 0⟩, (e₁, [])⟩
      ⟨1, .find "tint" fun now => .remember (fun _ => old :: now.toList) .done, ⟨1, 0⟩, (e₂, [])⟩ :=
    .single (.add h₂)
  have hduring : a.start.During tintLibrary (create {} .empty .initial, []) := .call rfl
  obtain ⟨now', hfound, hplace, hmentions, -⟩ :=
    Run.handles_agree .start hduring htakes hlater rfl
  have hnow : e₂.findRule 1 "tint" = some now := rfl
  cases hnow.symm.trans hfound
  exact ⟨_, _, _, old, now, hduring, htakes, hlater, rfl, rfl, rfl, hnow, hplace, hmentions⟩

/-- **A handle that was taken earlier can be another one than the handle of its slot:** it is still
    one of a class when the slot has become a custom property. It is a mention of the same name, but
    as a value it is not written as the custom property's. -/
theorem handle_outdated : ∃ steps e old now,
    Run tintLibrary (create {} .empty .initial, []) steps (e, [old, now]) ∧
      e.findRule 1 "tint" = some now ∧
      (now.scope = old.scope ∧ now.key = old.key ∧ now.slot = old.slot ∧ now.cell = old.cell) ∧
      old.kind = .cls ∧ now.kind = .var ∧ old.template = none ∧ now.template = some "color" ∧
      old.value ≠ now.value ∧
      (old.nameRef old.kind.valueForm).render e.names = .ok "card_tint" ∧
      (now.nameRef now.kind.valueForm).render e.names = .ok "var(--card_tint)" := by
  let old : RuleRef := ⟨1, 0, .cls, "tint", .ofRule 0, none⟩
  let now : RuleRef := ⟨1, 0, .var, "tint", .ofRule 0, some "color"⟩
  have hout : ((Session.performAll tintLibrary [.process 1 0]
      (⟨create {} .empty .initial, [], TextSink.empty⟩ : Session (List RuleRef) TextSink)).any
        fun out => out.2.memory = [old, now] && out.2.engine.findRule 1 "tint" = some now &&
          ((old.nameRef .bare).render out.2.engine.names).toOption = some "card_tint" &&
          ((now.nameRef .var).render out.2.engine.names).toOption = some "var(--card_tint)") =
            true := by decide +kernel
  -- One run is computed, and what it left behind is read off.
  obtain ⟨⟨steps, s⟩, hperform, hp⟩ := (Option.any_eq_true _ _).mp hout
  simp only [Bool.and_eq_true, decide_eq_true_eq] at hp
  obtain ⟨⟨⟨hmemory, hfound⟩, hold⟩, hnow⟩ := hp
  have hrun : Run tintLibrary (create {} .empty .initial, []) steps (s.engine, [old, now]) :=
    hmemory ▸ Run.performAll .start hperform
  have hok : ∀ {r : Except Error String} {text : String}, r.toOption = some text →
    r = .ok text := by
    intro r text h
    cases r with
    | error err => cases h
    | ok text' => exact congrArg Except.ok (Option.some.inj h)
  have hagrees : old.Agrees now := ⟨rfl, rfl, rfl, rfl⟩
  have hvalue : old.value ≠ now.value := fun heq =>
    absurd (hagrees.value_eq_iff.mp heq.symm) (by decide)
  exact ⟨steps, s.engine, old, now, hrun, hfound, ⟨rfl, rfl, rfl, rfl⟩, rfl, rfl, rfl, rfl, hvalue,
    hok hold, hok hnow⟩

end StyleBook
