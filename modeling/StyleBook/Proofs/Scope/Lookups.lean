import StyleBook.Proofs.Rule.Handles
import StyleBook.Proofs.Scope.Vacancies

namespace StyleBook

/-!
# Lookups that never miss

Scripts declare in a scope that they know by its id, and rules are known by their keys. Scopes of
definitions that fail are discarded in the middle of others that declare, yet whatever is looked up
is there. So the only thing that can go wrong with a definition is its script.

* `Engine.Lookup`, `Spot.Looks` — what the step of a script looks up, and in which state
* `Engine.Passes` — the states in which processing looks at a scope; `Engine.Passes.found` — the
  scope and its rules are there
* `Error.OfDefinition` — the script of a definition failed, or came back to a
  definition that declares
* `Attempt.Ready` — the engine may give a scope to a definition; `Attempt.Ready.error` — only such
  errors come of it
* `Spot.Looks.found` — nothing is missing that a script looks up
* `Run.processing_safe` — so it is after any calls, and at any time while an engine serves one
-/

/-- The script of a definition fails, or comes to a definition that is declaring. -/
inductive Error.OfDefinition : Error → Prop
  | cycle (title : String) : OfDefinition (.definitionCycle title)
  | construction (title message : String) : OfDefinition (.definitionConstruction title message)

namespace Engine

/-- What is looked up by its id, or by its key as well. -/
inductive Lookup
  | scope (id : ScopeId)
  | rule (id : ScopeId) (key : Nat)

/-- It is there. -/
def Lookup.Found (e : Engine) : Lookup → Prop
  | .scope id => ∃ s, e.scope? id = some s
  | .rule id key => ∃ r, e.rule? id key = some r

variable {e e' e₁ e₂ : Engine} {id k : ScopeId} {key : Nat} {s t : Scope}

/-- A rule is found whose key the scope has. -/
theorem Lookup.found_rule (hs : e.scope? id = some s) (hkey : key < s.rules.length) :
    (Lookup.rule id key).Found e :=
  ⟨s.rules[key], rule?_eq_some_iff.mpr ⟨s, hs, List.getElem?_eq_getElem hkey⟩⟩

/-- With a rule its scope is found. -/
theorem Lookup.Found.scope (h : (Lookup.rule id key).Found e) : (Lookup.scope id).Found e := by
  obtain ⟨r, hr⟩ := h
  obtain ⟨s, hs, -⟩ := rule?_eq_some_iff.mp hr
  exact ⟨s, hs⟩

/-! ### Processing -/

/-- **Where processing looks at a scope:** while `id` is processed in the state `e`, the scope `k`,
    which was `t` when its turn came, is looked at in the state `e'`, with all of
    the rules that it had. -/
inductive Passes : Nat → ScopeId → Engine → ScopeId → Scope → Engine → Prop
  /-- Some rules have their names. -/
  | names {limit id e s done rest e₁} (hs : e.scope? id = some s) (horder : s.order = done ++ rest)
    (hnames : forEach (assignName id) done e = (.ok (), e₁)) : Passes (limit + 1) id e id s e₁
  /-- The next one has a name, which is not in its place yet. -/
  | name {limit id e s done key rest e₁ rule slot name e₂} (hs : e.scope? id = some s)
    (horder : s.order = done ++ key :: rest)
    (hnames : forEach (assignName id) done e = (.ok (), e₁)) (hr : e₁.rule? id key = some rule)
    (hslot : rule.slot = some slot)
    (hname : ruleName id slot rule.explicitName e₁ = (.ok name, e₂)) :
    Passes (limit + 1) id e id s e₂
  /-- All rules have their names, and some are merged. -/
  | merges {limit id e s done rest e₁ e₂} (hs : e.scope? id = some s)
      (horder : s.order = done ++ rest)
    (hnames : forEach (assignName id) s.order e = (.ok (), e₁))
    (hmerges : forEach (mergeAt id) done e₁ = (.ok (), e₂)) : Passes (limit + 1) id e id s e₂
  /-- The styleset of the next one is merged, and not yet kept with the rule. -/
  | merge {limit id e s done key rest e₁ e₂ merged e₃} (hs : e.scope? id = some s)
    (horder : s.order = done ++ key :: rest)
    (hnames : forEach (assignName id) s.order e = (.ok (), e₁))
    (hmerges : forEach (mergeAt id) done e₁ = (.ok (), e₂))
    (hmerge : mergeRule id key e₂ = (merged, e₃)) : Passes (limit + 1) id e id s e₃
  /-- It is the turn of a scope that is nested in the scope. -/
  | nested {limit id e s done c rest e₁ e₂ k t e'} (hs : e.scope? id = some s)
    (hrules : processRules id s.order e = (.ok (), e₁)) (hchildren : s.children = done ++ c :: rest)
    (hdone : forEach (processWithin limit) done e₁ = (.ok (), e₂))
    (h : Passes limit c e₂ k t e') : Passes (limit + 1) id e k t e'
  /-- All that is left is to say that the scope is processed. -/
  | ends {limit id e s e₁ e₂} (hs : e.scope? id = some s)
    (hrules : processRules id s.order e = (.ok (), e₁))
    (hdone : forEach (processWithin limit) s.children e₁ = (.ok (), e₂)) :
    Passes (limit + 1) id e id s e₂

/-- One step for each of some rules keeps their layout, if one of them does. -/
theorem forEach_layout {α : Type} {step : α → EngineM Unit}
    (hstep : ∀ a e, Rescoped (fun _ => Scope.SameLayout) e (step a e).2) {list : List α}
    {r : Except Error Unit} (h : forEach step list e = (r, e')) :
    Rescoped (fun _ => Scope.SameLayout) e e' := by
  have hsteps : Rescoped (fun _ => Scope.SameLayout) e (forEach step list e).2 :=
    forEach_steps (R := Rescoped fun _ => Scope.SameLayout) list fun a _ e _ => hstep a e
  rwa [h] at hsteps

/-- Naming a rule keeps the layout of all scopes. -/
theorem assignName_layout (id : ScopeId) (key : Nat) (e : Engine) :
    Rescoped (fun _ => Scope.SameLayout) e (assignName id key e).2 :=
  (assignName_renamed id key e).mono fun _ _ _ _ hR => hR.sameLayout

/-- So does merging one. -/
theorem mergeAt_layout (id : ScopeId) (key : Nat) (e : Engine) :
    Rescoped (fun _ => Scope.SameLayout) e (mergeAt id key e).2 :=
  (mergeAt_remerged id key e).mono fun _ _ _ _ hR => hR.sameLayout

/-- Finding the name of a rule keeps layouts. -/
theorem ruleName_layout (id : ScopeId) (slot : String) (explicitName : Option String) (e : Engine) :
    Rescoped (fun _ => Scope.SameLayout) e (ruleName id slot explicitName e).2 := by
  cases explicitName with
  | none => exact (nameForWithin_renamed e.walkLimit id slot e).mono fun _ _ _ _ hR => hR.sameLayout
  | some name => exact .modifyScope fun _ _ => .of_rules rfl rfl rfl rfl rfl rfl

theorem processRules_layout {keys : List Nat} {r : Except Error Unit}
    (h : processRules id keys e = (r, e')) : Rescoped (fun _ => Scope.SameLayout) e e' := by
  have hfills := FillsRules.processRules id keys e
  rw [h] at hfills
  exact hfills.scopes.mono fun _ _ _ _ hR => hR.layout

/-- A state with the layout of an earlier one has the scope and the rules that were in its order. -/
theorem Rescoped.found {s : Scope} (hr : Rescoped (fun _ => Scope.SameLayout) e e')
    (hs : e.scope? id = some s) (hl : s.Listed) :
    (Lookup.scope id).Found e' ∧ ∀ key ∈ s.order, (Lookup.rule id key).Found e' := by
  obtain ⟨s', hs', hR⟩ := hr.scope hs
  refine ⟨⟨s', hs'⟩, fun key hkey => Lookup.found_rule hs' ?_⟩
  rw [hR.length_eq]
  exact hl.mem_order.mp hkey

/-- **The scope is there, with all of the rules that it had.** -/
theorem Passes.found {limit : Nat} (h : Passes limit id e k t e')
    (hl : ∀ {k s}, e.scope? k = some s → s.Listed) :
    (Lookup.scope k).Found e' ∧ ∀ key ∈ t.order, (Lookup.rule k key).Found e' := by
  -- What is looked up is there when the turn of the scope comes, and layouts are kept from then on.
  induction h with
  | names hs _ hnames => exact (forEach_layout (assignName_layout _) hnames).found hs (hl hs)
  | @name _ id _ _ _ _ _ e₁ rule slot _ _ hs _ hnames _ _ hname =>
    have hfound := ruleName_layout id slot rule.explicitName e₁
    rw [hname] at hfound
    exact ((forEach_layout (assignName_layout _) hnames).trans hfound).found hs (hl hs)
  | merges hs _ hnames hmerges =>
    exact ((forEach_layout (assignName_layout _) hnames).trans
      (forEach_layout (mergeAt_layout _) hmerges)).found hs (hl hs)
  | @merge _ id _ _ _ key _ _ e₂ _ _ hs _ hnames hmerges hmerge =>
    have hremerged : Rescoped (fun _ => Scope.Remerged) e₂ (mergeRule id key e₂).2 :=
      mergeWithin_remerged e₂.allRules id key e₂
    rw [hmerge] at hremerged
    exact (((forEach_layout (assignName_layout _) hnames).trans
      (forEach_layout (mergeAt_layout _) hmerges)).trans
        (hremerged.mono fun _ _ _ _ hR => hR.sameLayout)).found hs (hl hs)
  | nested hs hrules _ hdone _ ih =>
    refine ih fun hs' => ?_
    obtain ⟨s, hs, hR⟩ := ((processRules_layout hrules).trans
      (forEach_layout (fun c e => processWithin_layout _ c e) hdone)).back hs'
    exact hR.listed (hl hs)
  | ends hs hrules hdone =>
    exact ((processRules_layout hrules).trans
      (forEach_layout (fun c e => processWithin_layout _ c e) hdone)).found hs (hl hs)

/-! ### Definitions -/

/-- **All that processing needs holds** while the definitions of `roots` declare: links are sound,
    places of names are empty before they are needed, names are not given yet, and processed scopes
    stand in layers. -/
structure Prepared (roots : List ScopeId) (e : Engine) : Prop where
  sound : Sound roots e
  vacant : Vacant e
  unnamed : Unnamed e
  layered : Layered e

open BuildM hiding onEngine changeEngine

variable {μ : Type} {library : Library μ} {limit : Nat} {d : Definition μ} {roots : List ScopeId}
  {s s' : Engine × μ} {err : Error}

/-- A definition opens a scope. -/
theorem Prepared.opened (h : Prepared roots e) (d : Definition μ) :
    Prepared (e.nextScope :: roots) (opened d e) := by
  have hallots := opened_allots d h.sound
  obtain ⟨hunnamed, hlayered⟩ := layered_survives.of_redeclares h.sound
    (opened_redeclares d h.sound.linked) hallots.cells h.unnamed h.layered
  exact ⟨(opened_spec d h.sound).sound, h.vacant.allots (h.vacant.opened d) hallots,
    hunnamed, hlayered⟩

/-- **When a definition has declared, all holds that processing its scope needs.** -/
theorem Prepared.declared (h : Prepared roots s.1) {declared : Except Error Unit} {s₁ : Engine × μ}
    (hscript : d.script.run (calls library limit) ⟨s.1.nextScope, 0⟩ (Engine.opened d s.1, s.2) =
      some (declared, s₁)) : Prepared (s.1.nextScope :: roots) s₁.1.endConstruction := by
  have hopened := h.opened d
  obtain ⟨t, ht, -⟩ := hopened.sound.root_owner List.mem_cons_self
  have hin : (Engine.opened d s.1).Inside s.1.nextScope s.1.nextScope := .root ht
  obtain ⟨hs₁, -⟩ := Builds.sound (d.script.run_builds_anything (b := ⟨s.1.nextScope, 0⟩)
    (calls_build_anything library limit) hopened.sound hin _ s₁ hscript) hopened.sound
  have hvacant : Vacant s₁.1 :=
    d.script.run_stepwise vacant_stepwise.toScripted (calls_stepped vacant_stepwise library limit)
      ⟨s.1.nextScope, 0⟩ _ hopened.sound hin _ s₁ hscript hopened.vacant
  obtain ⟨hunnamed, hlayered⟩ : Unnamed s₁.1 ∧ Layered s₁.1 :=
    d.script.run_stepwise layered_survives.stepwise.toScripted
      (calls_stepped layered_survives.stepwise library limit) ⟨s.1.nextScope, 0⟩ _
      hopened.sound hin _ s₁
      hscript hopened.unnamed hopened.layered
  obtain ⟨hunnamed', hlayered'⟩ : Unnamed s₁.1.endConstruction ∧ Layered s₁.1.endConstruction :=
    layered_survives.of_unchanged (e := s₁.1) (.of_scopes_eq rfl rfl rfl) rfl hunnamed hlayered
  exact ⟨hs₁.endConstruction, hvacant.aside rfl rfl rfl rfl rfl rfl, hunnamed', hlayered'⟩

/-- **A definition that gets a new scope fails in its script only.** -/
theorem construct_error (h : Prepared roots s.1)
    (hrun : construct (calls library limit) d s = some (.error err, s')) : err.OfDefinition := by
  rw [construct_eq] at hrun
  rcases hscript : d.script.run (calls library limit) ⟨s.1.nextScope, 0⟩ (opened d s.1, s.2) with
    _ | ⟨declared, s₁⟩ <;> rw [hscript] at hrun
  · cases hrun
  cases declared with
  | error cause =>
    -- An error that is not about a cycle becomes one about the definition.
    cases cause with
    | definitionCycle title => cases hrun; exact .cycle title
    | _ => cases hrun; exact .construction _ _
  | ok _ =>
    have hprepared := h.declared hscript
    have hok := processScope_succeeds hprepared.sound hprepared.vacant hprepared.layered
    replace hrun := (concluding_ok d s.1.nextScope (s₁.1.endConstruction, s₁.2)).symm.trans hrun
    rcases hproc : processScope s.1.nextScope s₁.1.endConstruction with ⟨r, e₂⟩
    rw [hproc] at hok hrun
    cases hok
    cases hrun

/-- A scope that is there is processed, or its definition is declaring. -/
theorem existing_error {title : String} (hid : ∃ t, e.scope? id = some t)
    (h : (existing title id e).1 = .error err) : err.OfDefinition := by
  obtain ⟨t, ht⟩ := hid
  unfold existing at h
  rw [stateful_bind_ok (requireScope_some ht)] at h
  split at h
  · cases h
    exact .cycle title
  · cases h

/-- The scope of a definition that has one is there. -/
theorem Prepared.existing_error (h : Prepared roots s.1) (hid : s.1.scopeOf? d.key = some id)
    (hrun : BuildM.onEngine (existing d.title id) s = some (.error err, s')) :
    err.OfDefinition := by
  obtain ⟨t, ht, -⟩ := h.sound.linked.singleton_live hid
  rw [BuildM.onEngine_apply] at hrun
  exact Engine.existing_error ⟨t, ht⟩ (congrArg Prod.fst (Option.some.inj hrun))

/-- **An instance of a definition fails in its script only,** or its definition is declaring. -/
theorem processInstanceWith_error (h : Prepared roots s.1)
    (hrun : processInstanceWith (calls library limit) d s = some (.error err, s')) :
    err.OfDefinition := by
  unfold processInstanceWith at hrun
  rw [partial_bind, partial_get] at hrun
  simp only at hrun
  -- A type that is declaring is refused; else a new scope is declared, or the one that is known is
  -- taken.
  by_cases hkey : d.key ∈ s.1.constructing
  · rw [if_pos hkey] at hrun
    cases hrun
    exact .cycle d.title
  · rw [if_neg hkey] at hrun
    cases hm : d.multiplex with
    | true =>
      simp only [hm] at hrun
      exact construct_error h hrun
    | false =>
      cases hid : s.1.scopeOf? d.key with
      | none =>
        simp only [hm, hid] at hrun
        exact construct_error h hrun
      | some id =>
        simp only [hm, hid] at hrun
        exact h.existing_error hid hrun

/-- **So does a definition.** -/
theorem processWith_error (h : Prepared roots s.1)
    (hrun : processWith (calls library limit) d s = some (.error err, s')) : err.OfDefinition := by
  unfold processWith at hrun
  rw [partial_bind, partial_get] at hrun
  simp only at hrun
  cases hid : s.1.scopeOf? d.key with
  | none =>
    simp only [hid] at hrun
    exact processInstanceWith_error h hrun
  | some id =>
    simp only [hid] at hrun
    exact h.existing_error hid hrun

/-- And a definition that is reached under a limit. -/
theorem calls_error {key : Nat} (h : Prepared roots s.1)
    (hrun : (calls library limit).process key s = some (.error err, s')) : err.OfDefinition := by
  cases limit with
  | zero => cases hrun
  | succ limit => exact processWith_error h hrun

end Engine

/-! ### Scripts -/

namespace Spot

open BuildM
open Engine hiding onEngine changeEngine

variable {μ : Type} {library : Library μ} {p q : Spot μ} {s : Engine × μ} {root : ScopeId}
  {roots : List ScopeId}

/-- **What a script looks up,** before it takes its step or on the way. -/
inductive Looks (library : Library μ) : Spot μ → Engine → Lookup → Prop
  /-- The scope in which a rule is declared. -/
  | add {limit slot rule next b s} :
      Looks library ⟨limit, .add slot rule next, b, s⟩ s.1 (.scope b.scope)
  | addUnnamed {limit rule next b s} :
    Looks library ⟨limit, .addUnnamed rule next, b, s⟩ s.1 (.scope b.scope)
  /-- The rule that has been declared. -/
  | added {limit slot rule next b s r s'}
    (h : onEngine (addRule b.scope slot rule) s = some (.ok r, s')) :
    Looks library ⟨limit, .add slot rule next, b, s⟩ s'.1 (.rule b.scope r.key)
  | addedUnnamed {limit rule next b s r s'}
    (h : onEngine (addUnnamedRule b.scope rule) s = some (.ok r, s')) :
    Looks library ⟨limit, .addUnnamed rule next, b, s⟩ s'.1 (.rule b.scope r.key)
  /-- The rule of a slot that the scope has. -/
  | find {limit slot next b s t key} (ht : s.1.scope? b.scope = some t)
    (hslot : t.named.get? slot = some key) :
    Looks library ⟨limit, .find slot next, b, s⟩ s.1 (.rule b.scope key)
  /-- The scope that extends a definition, or uses one, when that one has been processed. -/
  | extended {limit definition next b s base s'}
    (h : (calls library limit).process definition s = some (.ok base, s')) :
    Looks library ⟨limit, .extend definition next, b, s⟩ s'.1 (.scope b.scope)
  | used {limit definition next b s used s'}
    (h : (calls library limit).process definition s = some (.ok used, s')) :
    Looks library ⟨limit, .use definition next, b, s⟩ s'.1 (.scope b.scope)
  /-- The scope that is used, and its rules with slots. -/
  | collected {limit definition next b s used s'}
    (h : (calls library limit).process definition s = some (.ok used, s')) :
    Looks library ⟨limit, .use definition next, b, s⟩ (s'.1.addReference b.scope used) (.scope used)
  | collectedRule {limit definition next b s used s' t slot key}
    (h : (calls library limit).process definition s = some (.ok used, s'))
    (ht : (s'.1.addReference b.scope used).scope? used = some t) (hslot : (slot, key) ∈ t.named) :
    Looks library ⟨limit, .use definition next, b, s⟩ (s'.1.addReference b.scope used)
    (.rule used key)
  /-- The scope in which a group is nested, before the group has its scope and when it has. -/
  | nest {limit condition body next b s} :
    Looks library ⟨limit, .group condition body next, b, s⟩ s.1 (.scope b.scope)
  | nested {limit condition body next b s t} :
    Looks library ⟨limit, .group condition body next, b, s⟩ (addScope t s.1).2 (.scope b.scope)
  /-- The scope in which the rule of a group is declared, when the group has
      declared its own ones. -/
  | group {limit condition body next b s child s₁ s₂}
    (h : onEngine (addNested b.scope) s = some (.ok child, s₁))
    (hbody : body.run (calls library limit) ⟨child, 0⟩ s₁ = some (.ok (), s₂)) :
    Looks library ⟨limit, .group condition body next, b, s⟩ s₂.1 (.scope b.scope)
  /-- The rule of a group that has been declared. -/
  | grouped {limit condition body next b s r s'}
    (h : Script.grouping (calls library limit) condition body b s = some (.ok r, s')) :
    Looks library ⟨limit, .group condition body next, b, s⟩ s'.1 (.rule b.scope r.key)

/-- The rule that has been declared under a slot is there. -/
theorem found_addRule {e e' : Engine} {id : ScopeId} {slot : String} {rule : Rule} {r : RuleRef}
    (hl : Linked e) (hi : Indexed e) (h : addRule id slot rule e = (.ok r, e')) :
    (Lookup.rule id r.key).Found e' := by
  cases hs : e.scope? id with
  | none =>
    unfold addRule at h
    rw [stateful_bind_error (requireScope_none hs)] at h
    cases h
  | some t =>
    -- A new rule comes last, and one that is declared again keeps its key.
    cases hslot : t.named.get? slot with
    | none =>
      rw [addRule_new hs hslot] at h
      cases h
      refine Lookup.found_rule (scope?_modifyScope_self (e := e.newCell.2) _ hs) ?_
      show t.rules.length < (t.rules ++ [_]).length
      rw [List.length_append]
      exact Nat.lt_succ_self _
    | some key =>
      rw [addRule_known hs hslot] at h
      cases h
      refine Lookup.found_rule (scope?_modifyScope_self _ hs) ?_
      rw [Scope.setRule, List.length_set]
      exact (hl.listed hs).mem_order.mp
        ((hi.scope hs).named.subset (List.mem_map_of_mem (Dict.mem_of_get? hslot)))

/-- So is a rule without a slot. -/
theorem found_addUnnamedRule {e e' : Engine} {id : ScopeId} {rule : Rule} {r : RuleRef}
    (h : addUnnamedRule id rule e = (.ok r, e')) : (Lookup.rule id r.key).Found e' := by
  cases hs : e.scope? id with
  | none =>
    unfold addUnnamedRule at h
    rw [stateful_bind_error (requireScope_none hs)] at h
    cases h
  | some t =>
    rw [addUnnamedRule_eq hs] at h
    cases h
    refine Lookup.found_rule (scope?_modifyScope_self (e := e.newCell.2) _ hs) ?_
    show t.rules.length < (t.rules ++ [_]).length
    rw [List.length_append]
    exact Nat.lt_succ_self _

/-- A rule of a slot is there. -/
theorem found_named {e : Engine} {id : ScopeId} {t : Scope} {slot : String} {key : Nat}
    (hi : Indexed e)
    (ht : e.scope? id = some t) (hl : t.Listed) (hslot : (slot, key) ∈ t.named) :
    (Lookup.rule id key).Found e :=
  Lookup.found_rule ht
    (hl.mem_order.mp ((hi.scope ht).named.subset (List.mem_map_of_mem (f := Prod.snd) hslot)))

/-- **Nothing is missing that a script looks up.** -/
theorem Looks.found {e : Engine} {l : Lookup} (h : p.Looks library e l) (hp : p.Placed root roots)
    (hv : Vacant p.state.1) : l.Found e := by
  have hlive := hp.inside.live
  -- Definitions that are processed on the way leave the scope where it is.
  have hprocess : ∀ {limit key base s'},
      (calls library limit).process key p.state = some (.ok base, s') →
        Sound (root :: roots) s'.1 ∧ s'.1.Inside root p.builder.scope ∧ s'.1.Ready base ∧
        Vacant s'.1 := by
    intro limit key base s' h
    obtain ⟨hbuilds, hready⟩ := (calls_build_anything library limit).process hp.sound trivial h
    obtain ⟨hs', hx⟩ := hbuilds.sound hp.sound
    exact ⟨hs', hx.inside hp.inside, hready base rfl,
      (calls_stepped vacant_stepwise library limit).process hp.sound h hv⟩
  cases h with
  | add | addUnnamed | nest => exact hlive
  | @added limit slot rule next b s r s' h =>
    rw [BuildM.onEngine_apply] at h
    injection h with h
    obtain ⟨hok, rfl⟩ := Prod.mk.inj h
    exact found_addRule hp.sound.linked hv.toIndexed (Prod.ext hok rfl)
  | @addedUnnamed limit rule next b s r s' h =>
    rw [BuildM.onEngine_apply] at h
    injection h with h
    obtain ⟨hok, rfl⟩ := Prod.mk.inj h
    exact found_addUnnamedRule (Prod.ext hok rfl)
  | find ht hslot =>
    exact found_named hv.toIndexed ht (hp.sound.linked.listed ht) (Dict.mem_of_get? hslot)
  | extended h | used h => exact (hprocess h).2.1.live
  | @collected limit definition next b s used s' h =>
    obtain ⟨-, -, ⟨t, ht, -⟩, -⟩ := hprocess h
    obtain ⟨t', ht', -⟩ := (addReference_referenced b.scope used s'.1).scope ht
    exact ⟨t', ht'⟩
  | @collectedRule limit definition next b s used s' t slot key h ht hslot =>
    obtain ⟨hs', hin, hready, hv'⟩ := hprocess h
    obtain ⟨u, hu, hR⟩ := (addReference_referenced b.scope used s'.1).back ht
    exact found_named (vacant_stepwise.addReference hs' hin hready hv').toIndexed ht
      ((hs'.linked.listed hu).congr hR.order (congrArg List.length hR.rules)) hslot
  | @nested limit condition body next b s t =>
    obtain ⟨u, hu⟩ := hlive
    show ∃ u, (addScope t s.1).2.scope? b.scope = some u
    rw [scope?_addScope]
    split
    · exact ⟨t, rfl⟩
    · exact ⟨u, hu⟩
  | @group limit condition body next b s child s₁ s₂ h hbody =>
    obtain ⟨child', e₁, hnest, hbuilds, hin⟩ :=
      addNested_builds (P := anything) hp.sound.linked hp.inside
    rw [BuildM.onEngine_apply, hnest] at h
    cases h
    obtain ⟨hs₁, hx₁⟩ := (hbuilds roots).sound hp.sound
    obtain ⟨-, hx₂⟩ := Builds.sound (Script.run_builds_anything (b := ⟨child, 0⟩)
      (calls_build_anything library limit) body hs₁ hin _ s₂ hbody) hs₁
    exact (hx₂.inside (hx₁.inside hp.inside)).live
  | @grouped limit condition body next b s r s' h =>
    unfold Script.grouping at h
    rcases partial_bind_eq_some h with ⟨child, s₁, -, hrest⟩ | ⟨err, -, hr⟩
    · rcases partial_bind_eq_some hrest with ⟨_, s₂, -, hadd⟩ | ⟨err, -, hr⟩
      · rw [BuildM.onEngine_apply] at hadd
        injection hadd with hadd
        obtain ⟨hok, rfl⟩ := Prod.mk.inj hadd
        exact found_addUnnamedRule (Prod.ext hok rfl)
      · cases hr
    · cases hr

/-- **While an engine serves a call, all that processing needs holds** wherever a script stands. -/
theorem During.prepared (h : During library s p) (hs : Prepared [] s.1) :
    ∃ root roots, p.Placed root roots ∧ Prepared (root :: roots) p.state.1 := by
  induction h with
  | @call a ha =>
    subst ha
    exact ⟨_, _, Attempt.placed hs.sound, hs.opened a.definition⟩
  | next _ hnext ih =>
    obtain ⟨root, roots, hp, hprepared⟩ := ih
    obtain ⟨hq, hvacant⟩ := hnext.across vacant_stepwise hp
    obtain ⟨hunnamed, hlayered⟩ :=
      (hnext.across layered_survives.stepwise hp).2 hprepared.unnamed hprepared.layered
    exact ⟨root, roots, hq, hq.sound, hvacant hprepared.vacant, hunnamed, hlayered⟩
  | @reached p a _ ha ih =>
    obtain ⟨root, roots, -, hprepared⟩ := ih
    have hready : Prepared (root :: roots) a.state.1 := ha.state_eq ▸ hprepared
    exact ⟨_, _, Attempt.placed hready.sound, hready.opened a.definition⟩

end Spot

/-! ### After any calls -/

open Engine

variable {μ : Type} {library : Library μ} {s : Engine × μ}

/-- **A definition gets a scope while an engine serves a call:** that of the call, or one that a
    script reaches. -/
inductive Attempt.During (library : Library μ) (s : Engine × μ) (a : Attempt μ) : Prop
  | call (h : a.state = s)
  | reached {p : Spot μ} (hp : p.During library s) (h : p.Attempts library a)

/-- Then all holds that processing needs. -/
theorem Attempt.During.prepared {a : Attempt μ} (h : a.During library s) (hs : Prepared [] s.1) :
    ∃ roots, Prepared roots a.state.1 := by
  cases h with
  | call h => exact ⟨[], h ▸ hs⟩
  | reached hp h =>
    obtain ⟨root, roots, -, hprepared⟩ := hp.prepared hs
    exact ⟨root :: roots, h.state_eq ▸ hprepared⟩

variable {naming : NamingConfig} {catalog : Catalog} {ambient : Ambient} {memory : μ}
  {steps : List (Request μ × Answer)}

/-- Between calls all holds that processing needs. -/
theorem Run.prepared (h : Run library (create naming catalog ambient, memory) steps s) :
    Prepared [] s.1 := by
  have hcreate := sound_create naming catalog ambient
  have hs := h.sound hcreate
  have hvacant : Vacant (create naming catalog ambient) :=
    { scope := fun hk => by cases hk
      placed := fun hr => by cases hr
      own := fun hr => by cases hr
      unfilled := fun ⟨_, _, hk, _⟩ => by cases hk
      ahead := fun _ => rfl }
  exact ⟨hs, h.callwise vacant_callwise hcreate hvacant, hs.unnamed, h.layered⟩

/-- **Whatever an engine has been asked, only scripts of definitions can fail.** The scope or the
    instance of a definition is refused because a script failed or came back to a definition that
    declares, and for no other reason; so are those that scripts reach, at any time while a call is
    served. All that scripts look up is there. A definition that has declared its rules is
    processed, and all scopes and rules are there that processing looks up, also in
    the scopes nested in it. -/
theorem Run.processing_safe (h : Run library (create naming catalog ambient, memory) steps s) :
    (∀ limit key err s', process library limit key s = some (.error err, s') → err.OfDefinition) ∧
      (∀ limit d err s', processInstance library limit d s = some (.error err, s') →
        err.OfDefinition) ∧
      (∀ p, Spot.During library s p →
        (∀ key err s', (calls library p.limit).process key p.state = some (.error err, s') →
          err.OfDefinition) ∧
        ∀ e l, p.Looks library e l → l.Found e) ∧
      ∀ a, Attempt.During library s a → ∀ s₁, a.start.run library = some (.ok (), s₁) →
        (processScope a.state.1.nextScope s₁.1.endConstruction).1 = .ok () ∧
          ∀ k t e', Passes s₁.1.endConstruction.walkLimit a.state.1.nextScope
          s₁.1.endConstruction k t e' →
            (Lookup.scope k).Found e' ∧ ∀ key ∈ t.order, (Lookup.rule k key).Found e' := by
  have hs := h.prepared
  refine ⟨fun _ _ _ _ => processWith_error hs, fun _ _ _ _ => processInstanceWith_error hs,
    fun p hp => ?_, fun a ha s₁ hscript => ?_⟩
  · obtain ⟨root, roots, hplaced, hprepared⟩ := hp.prepared hs
    exact ⟨fun _ _ _ => calls_error hprepared, fun _ _ hl => hl.found hplaced hprepared.vacant⟩
  · obtain ⟨roots, hprepared⟩ := ha.prepared hs
    have hdeclared := hprepared.declared (d := a.definition) hscript
    exact ⟨processScope_succeeds hdeclared.sound hdeclared.vacant hdeclared.layered,
      fun _ _ _ hpass => hpass.found hdeclared.sound.linked.listed⟩

/-- A library of a definition that fails with a group in it, and of one that
    goes on when that fails. -/
def patchyLibrary : Library Unit
  | 0 => ⟨0, "Base", "base", false, .add "box" (.cls .empty) fun _ => .done⟩
  | 1 => ⟨1, "Torn", "torn", false, .use 0 fun _ =>
      .group (.media "print") (.add "box" (.cls .empty) fun _ => .done) fun _ =>
      .fail .unknownScope⟩
  | key => ⟨key, "Page", "page", false, .extend 0 fun _ => .use 1 fun _ =>
      .group (.supports "grid") (.add "box" (.cls .empty) fun _ => .done) fun _ =>
        .add "box" (.cls .empty) fun _ => .done⟩

/-- The definition that goes on gets its scope, and the other one is refused
    because its script fails. -/
theorem processing_safe_of_patches : ∃ steps s t err s',
    Run patchyLibrary (create {} .empty .initial, ()) steps s ∧ s.1.scope? 1 = some t ∧ t.Settled ∧
      process patchyLibrary 3 1 s = some (.error err, s') ∧
      err = .definitionConstruction "Torn" "Unknown style scope" ∧ err.OfDefinition := by
  have hout : ((Session.performAll patchyLibrary [.process 3 2]
      (⟨create {} .empty .initial, (), TextSink.empty⟩ : Session Unit TextSink)).any fun out =>
        (out.2.engine.scope? 1).any (fun t => t.state = .processed) &&
          (process patchyLibrary 3 1 (out.2.engine, ())).any fun r =>
            r.1 = .error (.definitionConstruction "Torn" "Unknown style scope")) = true := by
    decide +kernel
  obtain ⟨⟨steps, s⟩, hall, hp⟩ := (Option.any_eq_true _ _).mp hout
  obtain ⟨hscope, hprocess⟩ := Bool.and_eq_true_iff.mp hp
  obtain ⟨t, ht, hstate⟩ := (Option.any_eq_true _ _).mp hscope
  obtain ⟨⟨r, s'⟩, hr, herr⟩ := (Option.any_eq_true _ _).mp hprocess
  cases of_decide_eq_true herr
  have hrun : Run patchyLibrary (create {} .empty .initial, ()) steps (s.engine, ()) :=
    Run.performAll .start hall
  have hsettled : t.Settled := by
    rw [Scope.Settled, of_decide_eq_true hstate]
    decide
  exact ⟨steps, (s.engine, ()), t, _, s', hrun, ht, hsettled, hr, rfl,
    hrun.processing_safe.1 3 1 _ s' hr⟩

end StyleBook
