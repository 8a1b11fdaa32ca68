import StyleBook.Proofs.Conversion.ConversionErrors
import StyleBook.Proofs.Name.SlotNames
import StyleBook.Proofs.Text.StableTexts

namespace StyleBook

/-!
# Texts that need names

The text of a scope needs the names of its rules, and those of the rules that its selectors mention.
Once a definition is processed, all rules of named kinds that have slots have names. So a text that
is missing a name is missing that of a rule without a slot, or of one that is
mentioned from elsewhere.

* `Rule.Lacks` — why the text of a rule cannot be written;
* `Engine.serializeWithin_fails` — a text that cannot be written has a rule that lacks a name, or
  groups that lead nowhere;
* `Run.rules_named` — all rules with slots have names, and what texts may lack otherwise;
* `nameless_rule` — a rule without a slot has no name.
-/

/-! ### Mentions -/

/-- The name that the mention stands for is missing. -/
def NameRef.Lacks (names : Names) (err : Error) (ref : NameRef) : Prop :=
  ref.name? names = none ∧ err = .unassignedName ref.slot

/-- A mention has no text if it lacks its name. -/
theorem NameRef.render_fails {names : Names} {ref : NameRef} {err : Error}
    (h : ref.render names = .error err) : ref.Lacks names err := by
  unfold NameRef.render at h
  cases hname : ref.name? names with
  | some name =>
    rw [hname] at h
    cases h
  | none =>
    rw [hname] at h
    cases h
    exact ⟨hname, rfl⟩

/-- The mention is part of the selector. -/
def Selector.Mentions (ref : NameRef) (selector : Selector) : Prop :=
  SelectorToken.name ref ∈ selector.tokens

/-- A selector that has no text has a mention that lacks its name. -/
theorem Selector.render_fails {names : Names} {err : Error} {selector : Selector}
    (h : selector.render names = .error err) :
    ∃ ref, selector.Mentions ref ∧ ref.Lacks names err := by
  obtain ⟨tokens⟩ := selector
  show ∃ ref, SelectorToken.name ref ∈ tokens ∧ _
  change renderTokens names tokens = .error err at h
  -- A token in front does not change why the rest has no text.
  have hrest : ∀ {write : String → String} {rest : List SelectorToken},
      (renderTokens names rest).map write = .error err → renderTokens names rest = .error err := by
    intro write rest h
    cases hr : renderTokens names rest with
    | error err' =>
      rw [hr] at h
      cases h
      rfl
    | ok text =>
      rw [hr] at h
      cases h
  induction tokens with
  | nil => cases h
  | cons token rest ih =>
    cases token with
    | text s =>
      obtain ⟨ref, hmem, hlacks⟩ := ih (hrest h)
      exact ⟨ref, List.mem_cons_of_mem _ hmem, hlacks⟩
    | name ref =>
      rw [renderTokens] at h
      cases hname : ref.render names with
      | error err' =>
        rw [hname] at h
        cases h
        exact ⟨ref, List.mem_cons_self, NameRef.render_fails hname⟩
      | ok text =>
        rw [hname] at h
        obtain ⟨ref', hmem, hlacks⟩ := ih (hrest h)
        exact ⟨ref', List.mem_cons_of_mem _ hmem, hlacks⟩

/-- **The mention is part of a selector that depends on the styleset's own,** at any depth. -/
inductive Styleset.Mentions (ref : NameRef) : Styleset → Prop
  | here {s : Styleset} {selector styles} (h : (selector, styles) ∈ s.dependents)
    (hm : selector.Mentions ref) : Mentions ref s
  | inside {s : Styleset} {selector styles} (h : (selector, styles) ∈ s.dependents)
    (hm : Mentions ref styles) : Mentions ref s

/-- The text of a mention of the styleset is missing. -/
def Styleset.Lacks (names : Names) (err : Error) (s : Styleset) : Prop :=
  ∃ ref, s.Mentions ref ∧ ref.Lacks names err

/-- **The text of the rule lacks a name:** that of the rule itself, which needs one, or of a mention
    in a selector. Values without text are left out of texts, and so are custom properties without
    names. -/
inductive Rule.Lacks (names : Names) (err : Error) (r : Rule) : Prop
  | own (hkind : r.kind.isNamed = true) (hname : r.name? names = none)
    (herr : err = .unassignedName (r.slot.getD ""))
  | selector {selector body ref} (h : r.content = .selector selector body)
    (hm : selector.Mentions ref) (hl : ref.Lacks names err)
  | dependent {s ref} (h : r.styleset? = some s) (hm : s.Mentions ref) (hl : ref.Lacks names err)

/-! ### Rules -/

namespace Styleset

variable {setting : Setting} {G : Error → Prop}

/-- Custom properties are left out if they have no text. -/
theorem customText_fails (property : CustomProperty) :
    Convert.Fails G (customText setting property) := by
  unfold customText
  cases property.name.render setting.names with
  | error err => exact .bind (.report _) fun _ => .pure _
  | ok name =>
    refine .bind (.attempt _) fun result => ?_
    cases result with
    | ok text => exact .pure _
    | error err => exact .bind (.report _) fun _ => .pure _

/-- So are properties. -/
theorem propertyText_fails (name : String) (d : Declaration) :
    Convert.Fails G (propertyText setting name d) := by
  unfold propertyText
  refine .bind (.attempt _) fun result => ?_
  cases result with
  | ok text => exact .pure _
  | error err => exact .bind (.report _) fun _ => .pure _

/-- **Declarations can always be written.** -/
theorem declarations_fails (s : Styleset) : Convert.Fails G (declarations setting s) := by
  have hcustom : ∀ list, Convert.Fails G (customTexts setting list) := fun list => by
    induction list with
    | nil => exact .pure _
    | cons property _ ih => exact .bind (customText_fails property) fun _ => .map ih _
  have hproperties : ∀ list, Convert.Fails G (propertyTexts setting list) := fun list => by
    induction list with
    | nil => exact .pure _
    | cons entry _ ih => exact .bind (propertyText_fails entry.1 entry.2) fun _ => .map ih _
  exact .bind (hcustom s.custom) fun _ => .map (hproperties s.properties) _

mutual

/-- **A styleset can be written under a selector** unless one of its mentions lacks its name. -/
theorem rules_fails (selector : String) : ∀ s : Styleset,
    Convert.Fails (s.Lacks setting.names) (rules setting selector s)
  | ⟨properties, custom, dependents⟩ => by
    rw [rules]
    refine .bind (declarations_fails _) fun _ =>
    .map ((dependentRules_fails selector dependents).mono
      fun err h => ?_) _
    obtain ⟨entry, hentry, hlacks | ⟨ref, hm, hlacks⟩⟩ := h
    · obtain ⟨ref, hm, hlacks⟩ := hlacks
      exact ⟨ref, .here hentry hm, hlacks⟩
    · exact ⟨ref, .inside hentry hm, hlacks⟩

/-- So can those that depend on an owner, unless a mention of theirs does, or of their selectors. -/
theorem dependentRules_fails (owner : String) : ∀ list : List (Selector × Styleset),
    Convert.Fails (fun err => ∃ entry ∈ list, (∃ ref, entry.1.Mentions ref ∧
      ref.Lacks setting.names err) ∨ entry.2.Lacks setting.names err)
      (dependentRules setting owner list)
  | [] => by
    rw [dependentRules]
    exact .pure _
  | (selector, styles) :: rest => by
    rw [dependentRules]
    refine .bind (.ofExcept fun err herr => ?_) fun text =>
      .bind ((rules_fails text styles).mono fun err h => ⟨_, List.mem_cons_self, .inr h⟩) fun _ =>
        .map ((dependentRules_fails owner rest).mono fun err ⟨entry, hmem, h⟩ =>
          ⟨entry, List.mem_cons_of_mem _ hmem, h⟩) _
    refine ⟨_, List.mem_cons_self, .inl ?_⟩
    -- The selector of a dependent stands under its owner's, so it fails by itself.
    unfold Selector.under at herr
    cases hr : selector.render setting.names with
    | error err' =>
      rw [hr] at herr
      cases herr
      exact Selector.render_fails hr
    | ok text =>
      rw [hr] at herr
      cases herr

end

end Styleset

namespace Rule

variable {setting : Setting}

/-- A rule of a named kind has its name, or lacks it. -/
theorem requireName_fails {r : Rule} {names : Names} {err : Error} (hkind : r.kind.isNamed = true)
    (h : r.requireName names = .error err) : r.Lacks names err := by
  unfold requireName at h
  cases hname : r.name? names with
  | some name =>
    rw [hname] at h
    cases h
  | none =>
    rw [hname] at h
    cases h
    exact .own hkind hname rfl

/-- The selector of a rule can be written, or lacks a name. -/
theorem selectorText_fails {r : Rule} {names : Names} {err : Error}
    (h : r.selectorText? names = .error err) : r.Lacks names err := by
  -- What is written around a name does not change why it is missing.
  have hmap : ∀ {result : Except Error String} {write : String → Option String},
      result.map write = .error err → result = .error err := by
    intro result write h
    cases result with
    | error err' =>
      cases h
      rfl
    | ok text => cases h
  unfold selectorText? at h
  split at h
  · next hcontent => exact requireName_fails (by unfold kind; rw [hcontent]; rfl) (hmap h)
  · next hcontent => exact requireName_fails (by unfold kind; rw [hcontent]; rfl) (hmap h)
  · cases h
  · next hcontent =>
    obtain ⟨ref, hm, hlacks⟩ := Selector.render_fails (hmap h)
    exact .selector hcontent hm hlacks
  · cases h
  · cases h
  · cases h

/-- **A rule can be written unless it lacks a name.** -/
theorem css_fails (r : Rule) :
    Convert.Fails (fun err => r.Lacks setting.names err) (r.css setting) := by
  unfold css
  split
  · next frames hcontent =>
    -- Frames report what they cannot write, and none of them fails.
    have hframes : ∀ list, Convert.Fails (fun err => r.Lacks setting.names err)
        (framesText setting list) := fun list => by
        induction list with
        | nil => exact .pure _
        | cons frame _ ih => exact .bind (Styleset.declarations_fails _) fun _ => .map ih _
    refine .bind (.ofExcept fun err => requireName_fails ?_) fun name => .map (hframes frames) _
    unfold kind
    rw [hcontent]
    rfl
  · refine .bind (.ofExcept fun err => selectorText_fails) fun selector => ?_
    split
    · next styleset _ hstyleset =>
      exact (Styleset.rules_fails _ _).mono fun err ⟨ref, hm, hlacks⟩ =>
        .dependent hstyleset hm hlacks
    · exact .pure _

end Rule

/-! ### Scopes -/

namespace Engine

variable {e : Engine} {k : ScopeId}

/-- A rule among these lacks a name. -/
def LacksAmong (e : Engine) (rules : List Rule) (err : Error) : Prop :=
  ∃ rule ∈ rules, rule.Lacks e.names err

/-- The variables among rules can be written, unless one lacks a name. -/
theorem rootDeclarations_fails (rules : List Rule) :
    Convert.Fails (e.LacksAmong rules) (rootDeclarations e.setting rules) := by
  induction rules with
  | nil => exact .pure _
  | cons rule rest ih =>
    have hrest : Convert.Fails (e.LacksAmong (rule :: rest)) (rootDeclarations e.setting rest) :=
      ih.mono fun err ⟨r, hr, h⟩ => ⟨r, List.mem_cons_of_mem _ hr, h⟩
    rw [rootDeclarations]
    split
    · next template value hcontent =>
      refine .bind (.ofExcept fun err herr => ⟨rule, List.mem_cons_self, ?_⟩) fun name =>
        .bind (.attempt _) fun result => ?_
      · exact Rule.requireName_fails (by unfold Rule.kind; rw [hcontent]; rfl) herr
      · cases result with
        | ok text => exact .map hrest _
        | error err => exact .bind (.report _) fun _ => .map hrest _
    · exact .map hrest _

/-- Rules can be written, unless one lacks a name, or a group of theirs cannot. -/
theorem ruleTexts_fails {G : Error → Prop} {nested : ScopeId → Convert (List String)}
    (rules : List Rule) (hrules : ∀ err, e.LacksAmong rules err → G err)
    (hnested : ∀ rule ∈ rules, ∀ condition j, rule.content = .group condition j →
      Convert.Fails G (nested j)) : Convert.Fails G (ruleTexts e nested rules) := by
  induction rules with
  | nil => exact .pure _
  | cons rule rest ih =>
    have hrest := ih (fun err ⟨r, hr, h⟩ => hrules err ⟨r, List.mem_cons_of_mem _ hr, h⟩)
      fun r hr => hnested r (List.mem_cons_of_mem _ hr)
    rw [ruleTexts]
    split
    · exact .map hrest _
    · exact .map hrest _
    · next condition j hcontent =>
      -- Only a group asks for what is nested, and that may fail; a group that is refused asks for
      -- nothing.
      have htext : Convert.Fails G (ruleTexts.groupText nested condition j) :=
        (hnested rule List.mem_cons_self condition j hcontent).map _
      refine .bind ?_ fun _ => .map hrest _
      unfold ruleTexts.groupTexts
      split
      · split
        · exact htext
        · exact .bind (.report _) fun _ => .pure _
      · exact htext
    · exact .bind ((Rule.css_fails rule).mono fun err h => hrules err ⟨rule, List.mem_cons_self, h⟩)
        fun _ => .map hrest _

/-- **Why the text of a scope cannot be written:** groups lead back to themselves, or nowhere, or a
    rule that is part of the text lacks a name. -/
theorem serializeWithin_fails (limit : Nat) (k : ScopeId) :
    Convert.Fails (fun err => err = .endless "" ∨
      (err = .unknownScope ∧ ∃ j, e.Shown k j ∧ e.scope? j = none) ∨
      ∃ j s, e.Shown k j ∧ e.scope? j = some s ∧ e.LacksAmong s.rules err)
      (e.serializeWithin limit k) := by
  induction limit generalizing k with
  | zero => exact .throw (.inl rfl)
  | succ limit ih =>
    rw [serializeWithin]
    split
    · next hnone => exact .throw (.inr (.inl ⟨rfl, k, .refl, hnone⟩))
    · next s hs =>
      -- What a rule of this scope lacks counts, since the scope is shown in itself.
      have hhere : ∀ err, e.LacksAmong s.rules err → ∃ j s, e.Shown k j ∧ e.scope? j = some s ∧
          e.LacksAmong s.rules err := fun err h => ⟨k, s, .refl, hs, h⟩
      refine .bind ((rootDeclarations_fails s.rules).mono fun err h => .inr (.inr (hhere err h)))
        fun _ => .map (ruleTexts_fails s.rules (fun err h => .inr (.inr (hhere err h))) ?_) _
      intro rule hrule condition j hcontent
      have hgroup : e.Groups k j := ⟨s, hs, rule, hrule, condition, hcontent⟩
      refine (ih j).mono fun err => .imp_right <| .imp ?_ ?_
      · rintro ⟨herr, i, hshown, hnone⟩
        exact ⟨herr, i, .head hgroup hshown, hnone⟩
      · rintro ⟨i, t, hshown, ht, hlacks⟩
        exact ⟨i, t, .head hgroup hshown, ht, hlacks⟩

end Engine

open Engine

variable {μ : Type}

/-- The scope is that of a definition that has just been processed: one of the library, or another
    instance. -/
def Engine.Yields (library : Library μ) (s : Engine × μ) (id : ScopeId) (s' : Engine × μ) : Prop :=
  (∃ limit key, process library limit key s = some (.ok id, s')) ∨
    ∃ limit d, processInstance library limit d s = some (.ok id, s')

/-- A processed definition has a scope, and its rules have names, as have those of all others. -/
theorem Engine.Yields.labelled {library : Library μ} {s s' : Engine × μ} {id : ScopeId}
    (h : Yields library s id s') (hs : Sound [] s.1) (hl : Labelled s.1) :
    (∃ t, s'.1.scope? id = some t) ∧ Sound [] s'.1 ∧ Labelled s'.1 := by
  rcases h with ⟨limit, key, h⟩ | ⟨limit, d, h⟩
  · obtain ⟨hbuilds, hreached⟩ := process_builds hs h
    obtain ⟨t, ht, -⟩ := hreached id rfl
    exact ⟨⟨t, ht⟩, (hbuilds.sound hs).1,
      (process_stepwise labelled_survives.stepwise hs h hs.unnamed hl).2⟩
  · obtain ⟨hbuilds, hreached⟩ := processInstance_builds hs h
    obtain ⟨t, ht, -⟩ := hreached id rfl
    exact ⟨⟨t, ht⟩, (hbuilds.sound hs).1,
      (processInstance_stepwise labelled_survives.stepwise hs h hs.unnamed hl).2⟩

/-- Rules of named kinds with slots have names, once their scopes are processed. -/
theorem Engine.Labelled.named {e : Engine} (h : Labelled e) {k : ScopeId} {t : Scope} {rule : Rule}
    (ht : e.scope? k = some t) (hsettled : t.Settled) (hrule : rule ∈ t.rules)
    (hkind : rule.kind.isNamed = true) (hslot : rule.slot.isSome = true) :
    (rule.name? e.names).isSome = true := by
  obtain ⟨key, hkey⟩ := List.mem_iff_getElem?.mp hrule
  obtain ⟨slot, hslot⟩ := Option.isSome_iff_exists.mp hslot
  obtain ⟨name, hname, -⟩ :=
    h.labelled ht hsettled key rule slot (List.getElem?_eq_some_iff.mp hkey).1 hkey hslot hkind
  exact Option.isSome_of_eq_some hname

/-- The mention is of the rule: the name stands in its place. -/
def NameRef.Of (rule : Rule) (ref : NameRef) : Prop :=
  ∃ cell, rule.cell = some cell ∧ ref.cell = .ofRule cell

/-- A mention has the name of the rule that it is of. -/
theorem NameRef.Of.name?_eq {rule : Rule} {ref : NameRef} {names : Names} (h : ref.Of rule) :
    ref.name? names = rule.name? names := by
  obtain ⟨cell, hcell, hplace⟩ := h
  unfold NameRef.name? Rule.name?
  rw [hcell, hplace]
  rfl

/-- **A processed definition has named all its rules that have slots,** of the kinds that have
    names, in its scope and in those nested in it. If its text cannot be written because a name is
    missing, then a rule that is part of the text has no slot, or it mentions a name that is
    missing, which is not that of a rule with a slot. -/
theorem Run.rules_named {library : Library μ} {naming : NamingConfig} {catalog : Catalog}
    {ambient : Ambient} {memory : μ} {steps : List (Request μ × Answer)} {s s' : Engine × μ}
    {id : ScopeId} (hrun : Run library (create naming catalog ambient, memory) steps s)
    (h : Yields library s id s') :
    (∃ t, s'.1.scope? id = some t) ∧
      (∀ k t, s'.1.Inside id k → s'.1.scope? k = some t → ∀ rule ∈ t.rules,
        rule.kind.isNamed = true → rule.slot.isSome = true →
          (rule.name? s'.1.names).isSome = true) ∧
      ∀ a slot, (s'.1.serialize id a).1 = .error (.unassignedName slot) →
        ∃ k t rule, s'.1.Shown id k ∧ s'.1.scope? k = some t ∧ rule ∈ t.rules ∧
          ((rule.kind.isNamed = true ∧ rule.slot = none) ∨
            ∃ ref, ((∃ selector body, rule.content = .selector selector body ∧
                selector.Mentions ref) ∨ ∃ styles, rule.styleset? = some styles ∧
                  styles.Mentions ref) ∧
              ref.slot = slot ∧ ref.name? s'.1.names = none ∧
              ∀ j u other, s'.1.scope? j = some u → other ∈ u.rules → other.kind.isNamed = true →
                other.slot.isSome = true → ¬ ref.Of other) := by
  obtain ⟨hlive, hs, hlabelled⟩ :=
    h.labelled (hrun.sound (sound_create naming catalog ambient)) hrun.labelled.1
  have hnamed : ∀ {k t rule}, s'.1.scope? k = some t → rule ∈ t.rules →
      rule.kind.isNamed = true → rule.slot.isSome = true → (rule.name? s'.1.names).isSome = true :=
    fun ht hrule => hlabelled.named ht (hs.settled ht) hrule
  refine ⟨hlive, fun k t _ ht rule hrule => hnamed ht hrule, fun a slot herr => ?_⟩
  -- A mention of a rule has that rule's name, so it is not missing if the rule has a slot.
  have hother : ∀ {ref : NameRef}, ref.name? s'.1.names = none → ∀ j u other,
      s'.1.scope? j = some u → other ∈ u.rules → other.kind.isNamed = true →
        other.slot.isSome = true → ¬ ref.Of other :=
        fun hnone j u other hu hmem hkind hslot hof => by
    have hsome := hnamed hu hmem hkind hslot
    rw [← hof.name?_eq, hnone] at hsome
    cases hsome
  -- The error is about a name, so it is none of those about scopes.
  rcases serializeWithin_fails _ id a _ herr with
    hendless | hunknown | ⟨k, t, hshown, ht, rule, hrule, hlacks⟩
  · cases hendless
  · cases hunknown.1
  refine ⟨k, t, rule, hshown, ht, hrule, ?_⟩
  cases hlacks with
  | own hkind hnone _ =>
    refine .inl ⟨hkind, Option.not_isSome_iff_eq_none.mp fun hslot => ?_⟩
    have hsome := hnamed ht hrule hkind hslot
    rw [hnone] at hsome
    cases hsome
  | @selector selector body ref hcontent hm hl =>
    obtain ⟨hnone, hslot⟩ := hl
    cases hslot
    exact .inr ⟨ref, .inl ⟨selector, body, hcontent, hm⟩, rfl, hnone, hother hnone⟩
  | @dependent styles ref hstyles hm hl =>
    obtain ⟨hnone, hslot⟩ := hl
    cases hslot
    exact .inr ⟨ref, .inr ⟨styles, hstyles, hm⟩, rfl, hnone, hother hnone⟩

/-- A library of a definition with a group and a mention of a rule that is nowhere, and one with a
    rule without a slot. -/
def namelessLibrary : Library Unit
  | 0 => ⟨0, "Card", "card", false, .add "body" (.cls .empty) fun _ =>
      .group (.media "print") (.add "part" (.id .empty) fun _ => .done) fun _ =>
        .addUnnamed (.selector ⟨[.name ⟨"ghost", .empty 0, .cls⟩]⟩ .empty) fun _ => .done⟩
  | key => ⟨key, "Plain", "plain", false, .addUnnamed (.cls .empty) fun _ => .done⟩

/-- The rules of a card and of its group have names, and only the mention is missing one. -/
theorem rules_named_of_sample : ∃ s t rule k u part,
    Yields namelessLibrary (create {} .empty .initial, ()) 1 s ∧
      s.1.scope? 1 = some t ∧ s.1.Inside 1 2 ∧ s.1.scope? 2 = some u ∧ part ∈ u.rules ∧
      part.kind.isNamed = true ∧ part.slot.isSome = true ∧
      (part.name? s.1.names).isSome = true ∧
      (s.1.serialize 1 .initial).1 = .error (.unassignedName "ghost") ∧
      s.1.Shown 1 k ∧ (∃ v, s.1.scope? k = some v ∧ rule ∈ v.rules) ∧
      ((rule.kind.isNamed = true ∧ rule.slot = none) ∨
        ∃ ref : NameRef, ref.slot = "ghost" ∧ ref.name? s.1.names = none) := by
  have hout : ((process namelessLibrary 2 0 (create {} .empty .initial, ())).any fun out =>
      out.1.toOption = some 1 && (out.2.1.scope? 1).isSome &&
        (out.2.1.scope? 2).any (fun u => u.owner = some 1 &&
          u.rules.any fun part => part.kind.isNamed && part.slot.isSome) &&
        (out.2.1.serialize 1 .initial).1 = .error (.unassignedName "ghost")) = true := by
    decide +kernel
  -- The run is decided, and tells that a mention is missing its name; the general theorem tells in
  -- which rule.
  obtain ⟨⟨r, s⟩, hprocess, hp⟩ := (Option.any_eq_true _ _).mp hout
  simp only [Bool.and_eq_true, Option.any_eq_true, List.any_eq_true, decide_eq_true_eq] at hp
  obtain ⟨⟨⟨hr, hlive⟩, u, hu, ho, part, hpart, hkind, hslot⟩, herr⟩ := hp
  cases eq_ok_of_toOption hr
  obtain ⟨t, ht⟩ := Option.isSome_iff_exists.mp hlive
  have hyields : Yields namelessLibrary (create {} .empty .initial, ()) 1 s :=
    .inl ⟨2, 0, hprocess⟩
  obtain ⟨-, hnamed, htext⟩ := Run.rules_named .start hyields
  have hinside : s.1.Inside 1 2 := .nested hu ho (.root ht)
  obtain ⟨k, v, rule, hshown, hv, hrule, hwhy⟩ := htext .initial "ghost" herr
  refine ⟨s, t, rule, k, u, part, hyields, ht, hinside, hu, hpart, hkind, hslot,
    hnamed 2 u hinside hu part hpart hkind hslot, herr, hshown, ⟨v, hv, hrule⟩, ?_⟩
  exact hwhy.imp_right fun ⟨ref, _, hslot, hnone, _⟩ => ⟨ref, hslot, hnone⟩

/-- **A rule without a slot has no name,** though its kind has names, and it has no text. -/
theorem nameless_rule : ∃ s t rule,
    Yields namelessLibrary (create {} .empty .initial, ()) 1 s ∧ s.1.scope? 1 = some t ∧
      rule ∈ t.rules ∧ rule.kind.isNamed = true ∧ rule.name? s.1.names = none ∧
      (s.1.serialize 1 .initial).1 = .error (.unassignedName "") := by
  have hout : ((process namelessLibrary 2 1 (create {} .empty .initial, ())).any fun out =>
      out.1.toOption = some 1 && (out.2.1.scope? 1).any (fun t =>
        t.rules.any fun rule => rule.kind.isNamed && rule.name? out.2.1.names = none) &&
        (out.2.1.serialize 1 .initial).1 = .error (.unassignedName "")) = true := by decide +kernel
  obtain ⟨⟨r, s⟩, hprocess, hp⟩ := (Option.any_eq_true _ _).mp hout
  simp only [Bool.and_eq_true, Option.any_eq_true, List.any_eq_true, decide_eq_true_eq] at hp
  obtain ⟨⟨hr, t, ht, rule, hrule, hkind, hname⟩, herr⟩ := hp
  cases eq_ok_of_toOption hr
  exact ⟨s, t, rule, .inl ⟨2, 1, hprocess⟩, ht, hrule, hkind, hname, herr⟩

end StyleBook
