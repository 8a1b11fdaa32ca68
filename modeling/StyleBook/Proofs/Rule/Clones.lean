import StyleBook.Proofs.Scope.Layers
import StyleBook.Proofs.Script.Onwards
import StyleBook.Proofs.Text.StableTexts

namespace StyleBook

/-!
# Rules of groups, and copies of them

The rule of a group belongs to a scope that is nested in the scope of the rule. Such a rule can be
copied from a scope that is there, between two calls, and a script can declare the copy in another
scope. There is no other way to declare a rule of a group.

* `Spot.Supplies` — the script declares a rule that it was given
* `Engine.Stocks G` — new rules of groups are about nested scopes, or about scopes in `G`;
  `Engine.stocks_spotwise` — so it is where scripts declare only such rules
* `Request.Copies` — scripts declare rules of groups only if they are copies; `CopyingRun` — a run
  of such calls
* `Script.Offers C`, `Request.Copies.of_offers` — what is seen from the scripts alone
* `Performed.stocks` — what a call does to rules of groups
-/

variable {μ : Type}

/-- **The step of the script declares a rule** with this content. -/
inductive Spot.Supplies : Spot μ → RuleContent → Prop
  | add {limit slot rule next b s} : Supplies ⟨limit, .add slot rule next, b, s⟩ rule.content
  | addUnnamed {limit rule next b s} : Supplies ⟨limit, .addUnnamed rule next, b, s⟩ rule.content

namespace Engine

variable {e e' e'' : Engine} {id k j : ScopeId} {roots : List ScopeId} {G : ScopeId → Prop}

/-- Scopes have groups about what they had them about, where contents of rules are kept. -/
theorem Groups.back {R : ScopeId → Scope → Scope → Prop} (h : e'.Groups k j) (hr : Rescoped R e e')
    (hR : ∀ k s s', R k s s' → s'.rules.map (·.content) = s.rules.map (·.content)) :
    e.Groups k j := by
  obtain ⟨s', hs', rule', hrule', condition, hcontent⟩ := h
  obtain ⟨s, hs, hRs⟩ := hr.back hs'
  have hmem : rule'.content ∈ s.rules.map (·.content) := hR k s s' hRs ▸ List.mem_map_of_mem hrule'
  obtain ⟨rule, hrule, heq⟩ := List.mem_map.mp hmem
  exact ⟨s, hs, rule, hrule, condition, heq.trans hcontent⟩

/-- **What rules of groups are about:** what such rules of the scope were about before, or a scope
    in `G`, or one that is nested in the scope. -/
structure Stocks (G : ScopeId → Prop) (e e' : Engine) : Prop where
  nests : Carries (fun _ => Scope.Nests) e e'
  groups {k j : ScopeId} : e'.Groups k j → e.Groups k j ∨ G j ∨ ∃ t,
    e'.scope? k = some t ∧ j ∈ t.children

namespace Stocks

theorem refl (e : Engine) : Stocks G e e := ⟨.refl e, .inl⟩

theorem trans (h : Stocks G e e') (h' : Stocks G e' e'') : Stocks G e e'' where
  nests := h.nests.trans h'.nests
  groups {k _} hg := by
    rcases h'.groups hg with hg | hg | hg
    · refine (h.groups hg).imp_right fun hnew => hnew.imp_right fun ⟨t, ht, hj⟩ => ?_
      obtain ⟨t', ht', hsubset⟩ := h'.nests k t ht
      exact ⟨t', ht', hsubset hj⟩
    · exact .inr (.inl hg)
    · exact .inr (.inr hg)

/-- Rules keep their contents, and scopes what is nested in them. -/
theorem of_contents {R : ScopeId → Scope → Scope → Prop} (h : Rescoped R e e')
    (hchildren : ∀ k s s', R k s s' → s'.children = s.children)
    (hcontents : ∀ k s s', R k s s' → s'.rules.map (·.content) = s.rules.map (·.content)) :
    Stocks G e e' where
  nests := .rescoped h fun k s s' hR => .of_children (hchildren k s s' hR)
  groups hg := .inl (hg.back h hcontents)

theorem layout (h : Rescoped (fun _ => Scope.SameLayout) e e') : Stocks G e e' :=
  of_contents h (fun _ _ _ hR => hR.children) fun _ _ _ hR => hR.contents

/-- A rule is declared. If it is that of a group, then of one in `G`, or of a nested one. -/
theorem declared {C : RuleContent → Prop} (h : Rescoped (fun k => Scope.Declared (k = id) C) e e')
    (hc : ∀ condition j, C (.group condition j) → G j ∨ ∃ t, e.scope? id = some t ∧
      j ∈ t.children) :
    Stocks G e e' where
  nests := .rescoped h fun _ _ _ hR => .of_children hR.children
  groups := fun {k j} ⟨s', hs', rule, hrule, condition, hcontent⟩ => by
    obtain ⟨s, hs, hR⟩ := h.back hs'
    obtain ⟨key, hkey⟩ := List.mem_iff_getElem?.mp hrule
    rcases hR.rule hkey with hold | ⟨rfl, hnew, -⟩
    · exact .inl ⟨s, hs, rule, List.mem_of_getElem? hold, condition, hcontent⟩
    · refine .inr ((hc condition j (hcontent ▸ hnew)).imp_right fun ⟨t, ht, hj⟩ => ?_)
      cases hs.symm.trans ht
      exact ⟨s', hs', hR.children ▸ hj⟩

/-- A scope gets one that is nested in it, and has no rules yet. -/
theorem addNested (hl : Linked e) (id : ScopeId) : Stocks G e (addNested id e).2 where
  nests := addNested_nests hl id
  groups := fun {k j} ⟨s', hs', rule, hrule, hcondition⟩ => .inl <| by
    cases hlive : e.scope? id with
    | none =>
      unfold Engine.addNested at hs'
      rw [stateful_bind_error (requireScope_none hlive)] at hs'
      exact ⟨s', hs', rule, hrule, hcondition⟩
    | some owner =>
      rw [scope?_addNested hl hlive] at hs'
      split at hs'
      · cases hs'
        cases hrule
      · split at hs'
        · next hk =>
          cases hs'
          exact ⟨owner, hk ▸ hlive, rule, hrule, hcondition⟩
        · exact ⟨s', hs', rule, hrule, hcondition⟩

/-- A definition opens a scope, which has no rules yet. -/
theorem opened (d : Definition μ) (hs : Sound roots e) : Stocks G e (opened d e) where
  nests := .opened d hs
  groups := fun {k j} ⟨s', hs', rule, hrule, hcondition⟩ => .inl <| by
    rcases (opened_spec d hs).back hs' with ⟨-, hfresh⟩ | hold
    · rw [hfresh.rules] at hrule
      cases hrule
    · exact ⟨s', hold, rule, hrule, hcondition⟩

/-- It has declared its rules. -/
theorem declares {d : Definition μ} (hs : Sound roots e) (h : Stocks G (Engine.opened d e) e') :
    Stocks G e e'.endConstruction :=
  ((opened d hs).trans h).trans (.layout (.of_scopes_eq rfl rfl rfl))

/-- A definition that opened a scope is left without it. -/
theorem abandoned {key : Nat} (h : Stocks G e e') (he : Linked e) (he' : Linked e')
    (ha : Abandoned e.nextScope key e' e'') : Stocks G e e'' where
  nests := h.nests.abandoned he he' ha
  groups := fun {k j} ⟨s', hs', rule, hrule, hcondition⟩ => by
    obtain ⟨hout, hk⟩ := ha.back hs'
    refine (h.groups ⟨s', hk, rule, hrule, hcondition⟩).imp_right fun hnew => hnew.imp_right ?_
    rintro ⟨t, ht, hj⟩
    exact ⟨t, ha.kept hout ht, hj⟩

end Stocks

/-- **So it is where scripts declare rules of groups in `G` only.** -/
theorem stocks_spotwise {At : Spot μ → Prop}
    (hG : ∀ {p condition j}, At p → p.Supplies (.group condition j) → G j) :
    Spot.Spotwise At (Stocks G) where
  refl := .refl _
  trans := .trans
  report event := .layout (.report event)
  add hat _ _ := .declared (addRule_declared _ _ _ _) fun _ _ hc =>
    .inl (hG hat (by rw [hc]; exact .add))
  addUnnamed hat _ _ := .declared (addUnnamedRule_declared _ _ _) fun _ _ hc =>
    .inl (hG hat (by rw [hc]; exact .addUnnamed))
  setBase _ _ _ := .declared (setBase_declared (C := fun _ => False) _ _ _) fun _ _ hc => hc.elim
  addReference _ _ _ :=
    .of_contents (addReference_referenced _ _ _) (fun _ _ _ hR => by rw [hR.eq_references])
      fun _ _ _ hR => by rw [hR.eq_references]
  addNested hs _ := .addNested hs.linked _
  groupRule _ _ _ ht hchild := .declared (addUnnamedRule_declared _ _ _) fun _ _ hc => by
    cases hc
    exact .inr ⟨_, ht, hchild⟩
  -- Processing lays out no rules, and giving a definition up leaves only what was there before it.
  processed {_ e e₁ _} d hs _ _ h hrun := by
    have hlayout := processScope_layout e.nextScope e₁.endConstruction
    rw [hrun] at hlayout
    exact (h.declares hs).trans (.layout hlayout)
  unprocessed {_ e e₁ e₂ _} d hs hs₁ _ h hrun := by
    have hlayout := processScope_layout e.nextScope e₁.endConstruction
    have hproc := hs₁.endConstruction.pending.processScope hs₁.endConstruction
    rw [hrun] at hlayout hproc
    have hprocessed : Stocks G e e₂ := (h.declares hs).trans (.layout hlayout)
    exact hprocessed.abandoned hs.linked hproc.linked (abandon_abandoned hproc.linked _ _)
  failed {_ e e₁} d event hs hs₁ _ h := by
    have hl := hs₁.endConstruction.linked
    have hleft := (h.declares hs).abandoned hs.linked hl (abandon_abandoned hl _ d.key)
    exact hleft.trans (.layout (.report event))

end Engine

/-! ### Calls -/

open Engine

variable {σ : Type} [Sink σ] {library : Library μ} {s : Engine × μ}

/-- **The definition for which a call opens a scope,** if it does so. -/
inductive Request.Attempts (library : Library μ) (s : Engine × μ) : Request μ → Attempt μ → Prop
  | process {limit key} (hnew : s.1.scopeOf? (library key).key = none)
    (hkey : (library key).key ∉ s.1.constructing) :
    Attempts library s (.process limit key) ⟨limit, library key, s⟩
  | processInstance {limit d} (hnew : d.multiplex = false → s.1.scopeOf? d.key = none)
    (hkey : d.key ∉ s.1.constructing) : Attempts library s (.processInstance limit d) ⟨limit, d, s⟩
  | activateDefinition {limit key} (hnew : s.1.scopeOf? (library key).key = none)
    (hkey : (library key).key ∉ s.1.constructing) :
    Attempts library s (.activateDefinition limit key) ⟨limit, library key, s⟩

/-- **Each rule of a group that scripts declare in the call is a copy** of one that a scope has
    before it. -/
def Request.Copies (library : Library μ) (s : Engine × μ) (request : Request μ) : Prop :=
  ∀ a p condition j, request.Attempts library s a → Spot.Onwards library a.start p →
    p.Supplies (.group condition j) → ∃ k, s.1.Groups k j

/-- A run in which so it is for each call. -/
inductive CopyingRun (library : Library μ) (start : Engine × μ) :
    List (Request μ × Answer) → Engine × μ → Prop
  /-- Nothing is called. -/
  | start : CopyingRun library start [] start
  /-- One more call. -/
  | call {σ : Type} [Sink σ] {steps e m r} {s' : Session μ σ}
    (before : CopyingRun library start steps (e, m)) (request : Request μ) (sink : σ)
    (copies : request.Copies library (e, m))
    (h : request.perform library ⟨e, m, sink⟩ = some (r, s')) :
    CopyingRun library start (steps ++ [(request, r)]) (s'.engine, s'.memory)

/-- It is a run. -/
theorem CopyingRun.run {start : Engine × μ} {steps : List (Request μ × Answer)}
    (h : CopyingRun library start steps s) : Run library start steps s := by
  induction h with
  | start => exact .start
  | call before request sink copies h ih => exact ih.call request sink h

/-! ### What is seen from scripts alone -/

/-- **Whatever answers the script gets, the rules that it is given have contents in `C`.** -/
def Script.Offers (C : RuleContent → Prop) : Script μ → Prop
  | .done | .fail _ => True
  | .add _ rule next | .addUnnamed rule next => C rule.content ∧ ∀ r, (next r).Offers C
  | .find _ next => ∀ found, (next found).Offers C
  | .scope next => ∀ id, (next id).Offers C
  | .extend _ next => ∀ answer, (next answer).Offers C
  | .use _ next => ∀ answer, (next answer).Offers C
  | .group _ body next => body.Offers C ∧ ∀ answer, (next answer).Offers C
  | .nameOf _ next => ∀ name, (next name).Offers C
  | .report _ next | .remember _ next => next.Offers C
  | .look next => ∀ memory, (next memory).Offers C

/-- What such a script declares is in `C`. -/
theorem Spot.Supplies.of_offers {C : RuleContent → Prop} {p : Spot μ} {content : RuleContent}
    (h : p.Supplies content) (hp : p.script.Offers C) : C content := by
  cases h with
  | add | addUnnamed => exact hp.1

/-- So it is where the script goes on, if the scripts of the library are of this kind. -/
theorem Script.Offers.onward {C : RuleContent → Prop} {p q : Spot μ}
    (hlibrary : ∀ key, (library key).script.Offers C) (hp : p.script.Offers C)
    (h : Spot.Onward library p q) : q.script.Offers C := by
  cases h with
  | reached ha =>
    cases ha with
    | extend | use => exact hlibrary _
  | next h =>
    cases h with
    | add | addUnnamed | group => exact hp.2 _
    | find | scope | extend | use | nameOf | look => exact hp _
    | extended => exact hlibrary _
    | grouped => exact hp.1
    | report | remember => exact hp

/-- **Rules of groups are copies, if the scripts in question are given no others.** -/
theorem Request.Copies.of_offers {C : RuleContent → Prop} {request : Request μ}
    (hlibrary : ∀ key, (library key).script.Offers C)
    (hcall : ∀ a, request.Attempts library s a → a.definition.script.Offers C)
    (hC : ∀ condition j, C (.group condition j) → ∃ k, s.1.Groups k j) :
    request.Copies library s := by
  intro a p condition j ha hlater hsupplies
  have hoffers : ∀ {q}, Spot.Onwards library a.start q → q.script.Offers C := fun hlater => by
    induction hlater with
    | refl => exact hcall a ha
    | tail _ h ih => exact ih.onward hlibrary h
  exact hC condition j (hsupplies.of_offers (hoffers hlater))

/-! ### Across calls -/

/-- Across a definition for which a call opens a scope. -/
theorem Request.Copies.attempt {request : Request μ} {a : Attempt μ} {r : Except Error ScopeId}
    {s' : Engine × μ} (h : request.Copies library s) (ha : request.Attempts library s a)
    (hs : Sound [] s.1) (hrun : a.run library = some (r, s')) :
    Stocks (fun j => ∃ k, s.1.Groups k j) s.1 s'.1 := by
  have hstate : a.state = s := by cases ha <;> rfl
  have hspots : Spot.Spotwise (Spot.Onwards library a.start)
    (Stocks fun j => ∃ k, s.1.Groups k j) :=
    stocks_spotwise fun hat hsupplies => h a _ _ _ ha hat hsupplies
  have hstocks := hspots.attempt_run (fun hat honward => hat.tail honward) (hstate ▸ hs) .refl hrun
  rwa [hstate] at hstocks

/-- Across a call for the scope of a definition. -/
theorem Request.Copies.process {request : Request μ} {limit key : Nat} {r : Except Error ScopeId}
    {s' : Engine × μ} (h : request.Copies library s) (hs : Sound [] s.1)
    (hattempts : s.1.scopeOf? (library key).key = none → (library key).key ∉ s.1.constructing →
      request.Attempts library s ⟨limit, library key, s⟩)
    (hrun : Engine.process library limit key s = some (r, s')) :
    Stocks (fun j => ∃ k, s.1.Groups k j) s.1 s'.1 := by
  rcases processWith_cases hrun with ⟨_, -, rfl⟩ | ⟨hnew, hrun⟩
  · exact .refl _
  · rcases processInstanceWith_cases hrun with ⟨-, rfl⟩ | ⟨_, -, -, rfl⟩ | ⟨hkey, -, hconstruct⟩
    · exact .refl _
    · exact .refl _
    · exact h.attempt (hattempts hnew hkey) hs hconstruct

/-- **What a call does to rules of groups,** if those that scripts declare are copies. -/
theorem Performed.stocks {request : Request μ} {s s' : Session μ σ} {r : Answer}
    (h : Performed library request s r s') (hs : Sound [] s.engine)
    (hcopies : request.Copies library (s.engine, s.memory)) :
    Stocks (fun j => ∃ k, s.engine.Groups k j) s.engine s'.engine := by
  -- Whoever uses a scope, its layout stays as it is.
  have hreused : ∀ {e e' : Engine}, Rescoped (fun _ => Scope.Reused True) e e' →
      Stocks (fun j => ∃ k, s.engine.Groups k j) e e' :=
    fun hR => .layout (hR.mono fun _ _ _ _ hk => hk.sameLayout)
  cases h with
  | process h => exact hcopies.process hs .process h
  | unprocessed h => exact hcopies.process hs .activateDefinition h
  | processInstance h =>
    rcases processInstanceWith_cases h with ⟨-, heq⟩ | ⟨_, -, -, heq⟩ | ⟨hkey, hnew, hconstruct⟩
    · cases heq
      exact .refl _
    · cases heq
      exact .refl _
    · exact hcopies.attempt (.processInstance hnew hkey) hs hconstruct
  | @activate id s r e sink h =>
    have hR := activate_reused hs.linked id s.sink
    rw [h] at hR
    exact hreused hR
  | @activateDefinition limit key s id e m r e' sink h h' =>
    have hs₁ := ((process_builds hs h).1.sound hs).1
    have hR := activate_reused hs₁.linked id s.sink
    rw [h'] at hR
    exact (hcopies.process hs .activateDefinition h).trans (hreused hR)
  | @deactivate id s r e sink h =>
    have hR := deactivate_reused hs.linked id s.sink
    rw [h] at hR
    exact hreused hR
  | @nameFor id slot s r e h =>
    have hR := nameFor_renamed id slot s.engine
    rw [h] at hR
    exact .layout (hR.mono fun _ _ _ _ hk => hk.sameLayout)
  | configure h =>
    subst h
    exact .layout (.of_scopes_eq rfl rfl rfl)

end StyleBook
