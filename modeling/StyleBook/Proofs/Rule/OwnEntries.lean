import StyleBook.Proofs.Name.SlotNames
import StyleBook.Proofs.Rule.Contributions
import StyleBook.Proofs.Rule.Stylesets

namespace StyleBook

/-!
# What rules declare themselves comes last

Custom properties and dependents are never overwritten: a merged styleset has those of everything
that went into it. What the rule declares itself is at the end. It stands there for the second time
only if the rule is among its own ancestors, and then it does, since a rule that is being merged
already gives what it declares.

* `Engine.Every` — a property of all rules; `Engine.every_callwise` — if new rules have it and
  processing keeps it, then calls keep it;
* `Rule.OwnLast` — what a rule declares itself comes last in what is kept with it;
* `Engine.ArisesUnder.own_entries_last` — so it is in every run, and what stands before it comes
  from ancestors of the rule;
* `own_entries_twice` — a rule that inherits from itself.
-/

/-! ### Properties of all rules -/

namespace Engine

variable {P : Rule → Prop} {e e' : Engine} {id : ScopeId}

/-- **All rules have the property.** -/
def Every (P : Rule → Prop) (e : Engine) : Prop :=
  ∀ k s, e.scope? k = some s → ∀ rule ∈ s.rules, P rule

namespace Every

theorem of_rule? (h : Every P e) {key : Nat} {rule : Rule} (hr : e.rule? id key = some rule) :
    P rule := by
  obtain ⟨s, hs, hkey⟩ := rule?_eq_some_iff.mp hr
  exact h id s hs rule (List.mem_of_getElem? hkey)

/-- A change that leaves rules alone. -/
theorem rescoped {R : ScopeId → Scope → Scope → Prop} (h : Every P e) (hr : Rescoped R e e')
    (hR : ∀ k s s', R k s s' → s'.rules = s.rules) : Every P e' := fun k s' hs' rule hrule => by
  obtain ⟨s, hs, hRs⟩ := hr.back hs'
  exact h k s hs rule (hR k s s' hRs ▸ hrule)

/-- One scope is changed, where new rules have the property. -/
theorem modifyScope {f : Scope → Scope} (h : Every P e)
    (hf : ∀ s, e.scope? id = some s → ∀ rule ∈ (f s).rules, rule ∈ s.rules ∨ P rule) :
    Every P (e.modifyScope id f) := fun k s' hs' rule hrule => by
  rw [scope?_modifyScope] at hs'
  split at hs'
  · next hk =>
    subst hk
    obtain ⟨s, hs, rfl⟩ := Option.map_eq_some_iff.mp hs'
    exact (hf s hs rule hrule).elim (h k s hs rule) fun hP => hP
  · exact h k s' hs' rule hrule

/-- A new rule has nothing kept with it. -/
theorem addRule (h : Every P e) (hnew : ∀ rule : Rule, rule.merged = none → P rule) (slot : String)
    (rule : Rule) : Every P (Engine.addRule id slot rule e).2 := by
  cases hs : e.scope? id with
  | none =>
    unfold Engine.addRule
    rw [stateful_bind_error (requireScope_none hs)]
    exact h
  | some s =>
    cases hslot : s.named.get? slot with
    | none =>
      rw [addRule_new hs hslot]
      -- Rules that were there have the property, so only the new one is looked at.
      refine modifyScope (e := { e with nextCell := e.nextCell + 1 }) h fun t _ r hr => ?_
      rcases List.mem_append.mp hr with hr | hr
      · exact .inl hr
      · exact .inr (List.mem_singleton.mp hr ▸ hnew _ rfl)
    | some key =>
      rw [addRule_known hs hslot]
      refine Every.modifyScope h fun t _ r hr => ?_
      rcases List.mem_or_eq_of_mem_set hr with hr | rfl
      · exact .inl hr
      · exact .inr (hnew _ rfl)

theorem addUnnamedRule (h : Every P e) (hnew : ∀ rule : Rule, rule.merged = none → P rule)
    (rule : Rule) : Every P (Engine.addUnnamedRule id rule e).2 := by
  cases hs : e.scope? id with
  | none =>
    unfold Engine.addUnnamedRule
    rw [stateful_bind_error (requireScope_none hs)]
    exact h
  | some s =>
    rw [addUnnamedRule_eq hs]
    refine modifyScope (e := { e with nextCell := e.nextCell + 1 }) h fun t _ r hr => ?_
    rcases List.mem_append.mp hr with hr | hr
    · exact .inl hr
    · exact .inr (List.mem_singleton.mp hr ▸ hnew _ rfl)

theorem addNested (h : Every P e) (hl : Linked e) : Every P (Engine.addNested id e).2 := by
  cases hs : e.scope? id with
  | none =>
    unfold Engine.addNested
    rw [stateful_bind_error (requireScope_none hs)]
    exact h
  | some s =>
    intro k s' hs' rule hrule
    rw [scope?_addNested hl hs] at hs'
    split at hs'
    · cases hs'
      cases hrule
    · split at hs'
      · cases hs'
        exact h id s hs rule hrule
      · exact h k s' hs' rule hrule

theorem opened {μ : Type} (h : Every P e) (d : Definition μ) : Every P (Engine.opened d e) :=
  fun k s' hs' rule hrule => by
    rw [scope?_opened] at hs'
    split at hs'
    · cases hs'
      cases hrule
    · exact h k s' hs' rule hrule

/-- The definition has declared all its rules. -/
theorem endConstruction (h : Every P e) : Every P e.endConstruction := h

theorem abandon (h : Every P e) (hl : Linked e) (id : ScopeId) (key : Nat) :
    Every P (e.abandon id key) :=
  fun k s' hs' => h k s' ((abandon_abandoned hl id key).back hs').2

end Every

section Building

variable (hnew : ∀ rule : Rule, rule.merged = none → P rule)
  (hprocess : ∀ id e, Every P e → Every P (processScope id e).2)

include hnew hprocess

/-- **All rules keep the property, whatever is built,** if new rules have it
    and processing keeps it. -/
theorem every_stepwise :
    Stepwise (fun _ e e' => Every P e → Every P e') (fun _ _ e e' => Every P e → Every P e') where
  idle h := h
  refl h := h
  trans h h' := h' ∘ h
  report event h := h
  addRule _ _ slot rule h := h.addRule hnew slot rule
  addUnnamedRule _ _ rule h := h.addUnnamedRule hnew rule
  setBase _ _ _ _ h := h.modifyScope fun _ _ _ => .inl
  addReference _ _ _ h := h.modifyScope fun s _ rule hrule => by
    split at hrule <;> exact .inl hrule
  process _ _ h := h
  declare h := h
  group hs _ h hevery := h (hevery.addNested hs.linked)
  -- While a definition declares nothing is merged; processing its scope is what has to keep the
  -- property.
  processed {_ e e₁ _ _} d _ _ _ h hrun hevery := by
    have hprocessed := hprocess e.nextScope _ (h (hevery.opened d)).endConstruction
    rwa [hrun] at hprocessed
  unprocessed {_ e e₁ _ _ _} d _ hs₁ _ h hrun hevery := by
    have hprocessed := hprocess e.nextScope _ (h (hevery.opened d)).endConstruction
    have hproc := hs₁.endConstruction.pending.processScope hs₁.endConstruction
    rw [hrun] at hprocessed hproc
    exact hprocessed.abandon hproc.linked _ d.key
  failed d event _ hs₁ _ h hevery :=
    (h (hevery.opened d)).endConstruction.abandon hs₁.endConstruction.linked _ d.key

/-- **So do calls.** -/
theorem every_callwise : Callwise fun e e' => Every P e → Every P e' where
  toStepwise := every_stepwise hnew hprocess
  reused _ _ hr _ h := h.rescoped hr fun _ _ _ hR => hR.rules
  named {e e' id slot r} _ _ h hevery := by
    have hrenamed := nameForWithin_renamed e.walkLimit id slot e
    have hrun : nameForWithin e.walkLimit id slot e = (r, e') := h
    rw [hrun] at hrenamed
    exact hevery.rescoped hrenamed fun _ _ _ hR => hR.rules
  configured _ _ h hevery := by
    subst h
    exact hevery

end Building

end Engine

/-! ### Own entries -/

/-- **What the rule declares itself comes last** in what is kept with it. -/
structure Rule.OwnLast (rule : Rule) : Prop where
  custom {body m} : rule.content.body? = some body → rule.merged = some m →
    body.styleset.custom <:+ m.custom
  dependents {body m} : rule.content.body? = some body → rule.merged = some m →
    body.styleset.dependents <:+ m.dependents

namespace Engine

open Relation

variable {e₀ e : Engine} {r : Place} {rule : Rule} {body : StyleBody} {m : Styleset}

/-- The entries of what is put together for a rule with which nothing was kept: those of ancestors,
    and the rule's own ones at last. -/
theorem Inherited.entries (h : e.Inherited r m) (hkept : e.kept? r = none)
    (hbody : e.body? r = some body) :
    ∃ before : List Place, (∀ q ∈ before, TransGen e.Asks q r) ∧
      m.custom = (before.flatMap fun q => (e.share q).custom) ++ body.styleset.custom ∧
      m.dependents = (before.flatMap fun q => (e.share q).dependents) ++
      body.styleset.dependents := by
  obtain ⟨before, hbefore, hmade⟩ := h
  have hshare : e.share r = body.styleset := by
    rw [share_of_own hkept, hbody]
    rfl
  refine ⟨before, hbefore, ?_, ?_⟩
  · rw [hmade.custom, List.flatMap_map, List.flatMap_append, List.flatMap_singleton, hshare]
  · rw [hmade.dependents, List.flatMap_map, List.flatMap_append, List.flatMap_singleton, hshare]

/-- **What is kept when a scope is processed:** the entries of ancestors, and
    then the rule's own ones. -/
theorem processScope_entries {id : ScopeId} (hr : (processScope id e).2.rule? r.1 r.2 = some rule)
    (hbody : rule.content.body? = some body) (hm : rule.merged = some m)
    (hkept : e.kept? r = none) :
    ∃ before : List Place, (∀ q ∈ before, TransGen e.Asks q r) ∧
      m.custom = (before.flatMap fun q => (e.share q).custom) ++ body.styleset.custom ∧
      m.dependents = (before.flatMap fun q => (e.share q).dependents) ++
      body.styleset.dependents := by
  have haccounted := processScope_accounted id e
  obtain ⟨rule₀, hr₀, hR⟩ := haccounted.found hr
  refine (haccounted.kept ((kept?_of_rule hr).trans hm)).entries hkept ?_
  rw [body?_of_rule hr₀, ← hR.content, hbody]

/-- Processing keeps own entries last. -/
theorem processScope_ownLast (id : ScopeId) (e : Engine) (h : Every Rule.OwnLast e) :
    Every Rule.OwnLast (processScope id e).2 := by
  -- Either the rule was merged before and is what it was, or its own entries are put last now.
  intro k s' hs' rule hrule
  obtain ⟨key, hkey⟩ := List.mem_iff_getElem?.mp hrule
  have hr : (processScope id e).2.rule? k key = some rule :=
    rule?_eq_some_iff.mpr ⟨s', hs', hkey⟩
  obtain ⟨rule₀, hr₀, hR⟩ := (processScope_accounted id e).found hr
  have hkept : e.kept? (k, key) = rule₀.merged := kept?_of_rule (r := (k, key)) hr₀
  cases hm₀ : rule₀.merged with
  | some m₀ =>
    rw [hR.of_merged (by rw [hm₀]; rfl)]
    exact h.of_rule? hr₀
  | none =>
    refine ⟨fun hbody hm => ?_, fun hbody hm => ?_⟩
    · obtain ⟨before, -, hcustom, -⟩ :=
        processScope_entries (r := (k, key)) hr hbody hm (hkept.trans hm₀)
      exact ⟨_, hcustom.symm⟩
    · obtain ⟨before, -, -, hdependents⟩ :=
        processScope_entries (r := (k, key)) hr hbody hm (hkept.trans hm₀)
      exact ⟨_, hdependents.symm⟩

/-- **A rule's own entries come last,** between the calls of every run. What comes before them when
    a scope is processed are the entries of rules that the rule asks, and that these ask in turn: of
    ancestors, the rule itself among them only if it is its own ancestor. -/
theorem ArisesUnder.own_entries_last {μ : Type} {P : Engine → ScopeId → StyleBody → Prop}
    {library : Library μ} (h : ArisesUnder P library e) :
    (∀ (r : Place) (rule : Rule) (body : StyleBody),
      e.rule? r.1 r.2 = some rule → rule.content.body? = some body →
        ∃ m, rule.merged = some m ∧ body.styleset.custom <:+ m.custom ∧
          body.styleset.dependents <:+ m.dependents) ∧
    ∀ (e₀ : Engine) (id : ScopeId) (r : Place) (rule : Rule) (body : StyleBody) (m : Styleset),
      (processScope id e₀).2.rule? r.1 r.2 = some rule → rule.content.body? = some body →
        rule.merged = some m → e₀.kept? r = none →
          ∃ before : List Place, (∀ q ∈ before, TransGen e₀.Asks q r) ∧
            m.custom = (before.flatMap fun q => (e₀.share q).custom) ++ body.styleset.custom ∧
            m.dependents =
              (before.flatMap fun q => (e₀.share q).dependents) ++ body.styleset.dependents := by
  refine ⟨fun r rule body hr hbody => ?_, fun _ _ _ _ _ _ => processScope_entries⟩
  obtain ⟨naming, catalog, ambient, memory, steps, m, hrun⟩ := h
  have hs := hrun.run.sound (sound_create naming catalog ambient)
  have hlast : Every Rule.OwnLast e := by
    refine hrun.run.callwise (every_callwise (fun rule hnone => ?_) processScope_ownLast)
      (sound_create naming catalog ambient) fun k s hs => by cases hs
    -- A new rule is not merged yet, so there is nothing to be last in.
    constructor
    all_goals
      intro body m _ hm
      cases hnone.symm.trans hm
  obtain ⟨s, hscope, hkey⟩ := rule?_eq_some_iff.mp hr
  -- Rules of settled scopes are merged.
  have hmerged := hs.linked.merged hscope (hs.settled hscope) rule (List.mem_of_getElem? hkey)
    (by rw [hbody]; rfl)
  obtain ⟨m, hm⟩ := Option.isSome_iff_exists.mp hmerged
  have hrule := hlast.of_rule? hr
  exact ⟨m, hm, hrule.custom hbody hm, hrule.dependents hbody hm⟩

end Engine

/-! ### A rule that inherits from itself -/

open Engine Relation

/-- A library of one definition with a rule that is declared again, to inherit from itself. -/
def selfLibrary : Library Unit := fun key =>
  ⟨key, "Self", "self", false,
    .add "a" (.cls .empty) fun own =>
      .add "a" ((Rule.cls (Styleset.empty.customNamed 0 "k" .null)).inherit [own]) fun _ => .done⟩

/-- The run of that library. -/
theorem selfLibrary_processed : ∃ e, ArisesUnder anything selfLibrary e ∧ e.allRules = [(1, 0)] ∧
    ∃ rule body m, e.rule? 1 0 = some rule ∧ rule.content.body? = some body ∧
      rule.merged = some m ∧ body.styleset.custom.length = 1 ∧
      m.custom.map (·.name) =
        body.styleset.custom.map (·.name) ++ body.styleset.custom.map (·.name) := by
  have hout : ((Request.process 1 0).perform selfLibrary (freshSession TextSink.empty)).any
      (fun out => decide (out.2.engine.allRules = [(1, 0)]) &&
        (out.2.engine.rule? 1 0).any fun rule => rule.content.body?.any fun body =>
          rule.merged.any fun m => decide (body.styleset.custom.length = 1 ∧
            m.custom.map (·.name) =
              body.styleset.custom.map (·.name) ++ body.styleset.custom.map (·.name))) = true := by
    decide +kernel
  obtain ⟨⟨answer, s'⟩, hperform, hp⟩ := (Option.any_eq_true _ _).mp hout
  obtain ⟨hrules, hrule⟩ := (Bool.and_eq_true _ _).mp hp
  obtain ⟨rule, hr, hp⟩ := (Option.any_eq_true _ _).mp hrule
  obtain ⟨body, hbody, hp⟩ := (Option.any_eq_true _ _).mp hp
  obtain ⟨m, hm, hp⟩ := (Option.any_eq_true _ _).mp hp
  exact ⟨s'.engine, ⟨{}, .empty, .initial, (), _, _, .call .start (.process 1 0) TextSink.empty
    (Request.declares_anything _ _ _) hperform⟩, of_decide_eq_true hrules, rule, body, m, hr, hbody,
    hm, of_decide_eq_true hp⟩

/-- Its own custom property comes last there, and in the tangle the first rule's own one comes last,
    too, behind those of its ancestors. -/
theorem own_entries_last_of_self : ∃ e, ArisesUnder anything selfLibrary e ∧
    (∃ rule body m, e.rule? 1 0 = some rule ∧ rule.content.body? = some body ∧
      rule.merged = some m ∧ body.styleset.custom <:+ m.custom) ∧
    ∃ rule body m, (processScope 1 tangledEngine).2.rule? 1 0 = some rule ∧
      rule.content.body? = some body ∧ rule.merged = some m ∧ ∃ before : List Place,
        (∀ q ∈ before, TransGen tangledEngine.Asks q (1, 0)) ∧
        m.custom =
          (before.flatMap fun q => (tangledEngine.share q).custom) ++ body.styleset.custom := by
  obtain ⟨e, harises, -, rule, body, m, hr, hbody, hm, -⟩ := selfLibrary_processed
  have hown := (harises.own_entries_last).1 (1, 0) rule body hr hbody
  obtain ⟨m', hm', hlast, -⟩ := hown
  cases hm.symm.trans hm'
  have hout : ((processScope 1 tangledEngine).2.rule? 1 0).any (fun rule =>
      rule.content.body?.isSome && rule.merged.isSome) = true := by decide +kernel
  obtain ⟨rule', hr', hp⟩ := (Option.any_eq_true _ _).mp hout
  obtain ⟨hbody', hmerged'⟩ := (Bool.and_eq_true _ _).mp hp
  obtain ⟨body', hbody'⟩ := Option.isSome_iff_exists.mp hbody'
  obtain ⟨m', hm'⟩ := Option.isSome_iff_exists.mp hmerged'
  obtain ⟨before, hbefore, hcustom, -⟩ := (harises.own_entries_last).2 tangledEngine 1 (1, 0) rule'
    body' m' hr' hbody' hm' rfl
  exact ⟨e, harises, ⟨rule, body, m, hr, hbody, hm, hlast⟩, rule', body', m', hr', hbody', hm',
    before, hbefore, hcustom⟩

/-- **The rule has its own entry twice.** What stands before the last one does not come from another
    rule: there is none. -/
theorem own_entries_twice : ¬ ∀ (e : Engine) (r : Place) (rule : Rule) (body : StyleBody)
    (m : Styleset), ArisesUnder anything selfLibrary e → e.rule? r.1 r.2 = some rule →
      rule.content.body? = some body → rule.merged = some m → ∃ before : List Place, r ∉ before ∧
        m.custom = (before.flatMap fun q => (e.share q).custom) ++ body.styleset.custom := by
  intro h
  obtain ⟨e, harises, hrules, rule, body, m, hr, hbody, hm, hone, hnames⟩ := selfLibrary_processed
  obtain ⟨before, hnotin, hcustom⟩ := h e (1, 0) rule body m harises hr hbody hm
  -- No other rule is there to contribute an entry.
  have hothers : (before.flatMap fun q => (e.share q).custom) = [] := by
    refine List.flatMap_eq_nil_iff.mpr fun q hq => ?_
    have hnone : e.rule? q.1 q.2 = none := by
      by_contra hsome
      obtain ⟨rule', hr'⟩ := Option.ne_none_iff_exists'.mp hsome
      have hmem := mem_allRules hr'
      rw [hrules, List.mem_singleton] at hmem
      exact hnotin (hmem ▸ hq)
    unfold share
    rw [hnone]
    rfl
  -- One entry cannot be as long as two.
  have hlength := congrArg List.length hnames
  rw [hcustom, hothers, List.nil_append, List.length_append, List.length_map] at hlength
  omega

end StyleBook
