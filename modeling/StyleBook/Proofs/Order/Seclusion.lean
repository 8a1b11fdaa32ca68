import StyleBook.Proofs.Order.Growing
import StyleBook.Proofs.Script.Successes

namespace StyleBook

/-!
# Definitions that are reached leave scopes alone

A script that depends only on what its calls return mentions no scopes but those that it was told
of: processed ones, and those inside of the scope it declares. So the rules of other definitions
that declare are no parents of its rules, and nothing is merged into them
when its scope is processed.

* `Engine.known` — what a script may know that declares in a scope;
* `Proceeds.secluded` — while a script proceeds, the scopes that it does not declare stay as they
  are, and so do all scopes while a definition is reached; what rules inherit stays right.
-/

namespace Engine

variable {e e' : Engine} {root k id : ScopeId} {roots : List ScopeId}

/-- **What a script may know that declares in a scope:** the processed scopes and those inside of
    it, which correspond to themselves. -/
def known (e : Engine) (root : ScopeId) : Likeness where
  cells := Eq
  scopes k j := k = j ∧ (e.Settles k ∨ e.Inside root k)
  sources _ := True
  units := []

theorem known_exact (e : Engine) (root : ScopeId) : (e.known root).Exact where
  cells := ⟨fun _ _ _ h h' => h.trans h'.symm, fun _ _ _ h h' => h.symm.trans h'⟩
  scopes := ⟨fun _ _ _ h h' => h.1.trans h'.1.symm, fun _ _ _ h h' => h.1.symm.trans h'.1⟩

/-- What a script knows it does not forget. -/
theorem known_mono (hx : Extends e e') (root : ScopeId) : e.known root ≤ e'.known root where
  cells h := h
  scopes h := ⟨h.1,
    h.2.imp (fun ⟨s, hs, hsettled⟩ => ⟨s, hx.settled hs hsettled, hsettled⟩) hx.inside⟩
  sources h := h
  units := rfl

/-- A report is about no scope. -/
theorem inside_report (event : Event) : (e.report event).Inside root k ↔ e.Inside root k :=
  ⟨fun h => h.of_owner fun hs => ⟨_, hs, rfl⟩, fun h => h.of_owner fun hs => ⟨_, hs, rfl⟩⟩

/-- Nothing is learned from a report. -/
theorem known_report (e : Engine) (event : Event) (root : ScopeId) :
    (e.report event).known root = e.known root := by
  unfold known
  simp only [inside_report]
  rfl

/-- The handles of rules of a scope that is known are known. -/
theorem known_ref {r : RuleRef} (h : e.Settles r.scope ∨ e.Inside root r.scope) :
    r.Alike (e.known root) r where
  scope := ⟨rfl, h⟩
  key := rfl
  kind := rfl
  slot := rfl
  cell := by
    cases r.cell with
    | fixed => exact .fixed
    | ofRule => exact .ofRule rfl
    | empty => exact .empty
  template := rfl

/-- **The parents of a rule that a script may declare are where they may be.** -/
theorem local_of_known {content content' : RuleContent} (h : content.Alike (e.known root) content')
    (hid : e.Inside root id) : Script.Allowed Local e id content := fun body hbody => by
  have hrel := h.body?
  rw [hbody] at hrel
  generalize content'.body? = body' at hrel
  cases hrel with
  | some hbody =>
    refine ((List.forall₂_and_left _ _).mp (hbody.parents.imp fun p p' hp => ⟨?_, hp⟩)).1
    exact hp.scope.2.imp_right fun hin => ⟨root, hid, hin⟩

/-- The handle of a rule that was declared without a slot. -/
theorem addUnnamedRule_ok {rule : Rule} {r : RuleRef} (h : addUnnamedRule id rule e = (.ok r, e')) :
    r.scope = id := by
  cases hs : e.scope? id with
  | none =>
    unfold addUnnamedRule at h
    rw [stateful_bind_error (requireScope_none hs)] at h
    cases h
  | some s =>
    rw [addUnnamedRule_eq hs] at h
    cases h
    rfl

/-- A handle that is found is one of a rule of the scope. -/
theorem findRule_known {slot : String} (hid : e.Inside root id) :
    Option.Rel (RuleRef.Alike (e.known root)) (e.findRule id slot) (e.findRule id slot) := by
  cases hr : e.findRule id slot with
  | none => exact .none
  | some r =>
    obtain ⟨s, key, rule, -, -, -, rfl⟩ := findRule_eq_some.mp hr
    exact .some (known_ref (.inr hid))

/-- **The handles of the named rules of a scope.** -/
theorem collectRefs_eq {s : Scope} (hs : e.scope? id = some s) :
    collectRefs id e = (.ok ⟨id, s.name, s.named.filterMap fun (slot, key) =>
      (e.refAt? id key).map (slot, ·)⟩, e) := by
  unfold collectRefs
  rw [stateful_bind_ok (requireScope_some hs)]
  rfl

/-- The handles of rules of a processed scope are known. -/
theorem collectRefs_known {refs : ScopeRefs} (h : (collectRefs id e).1 = .ok refs)
    (hid : e.Settles id) :
    refs.Alike (e.known root) refs := by
  obtain ⟨s, hs, hsettled⟩ := hid
  have hknown : e.Settles id ∨ e.Inside root id := .inl ⟨s, hs, hsettled⟩
  rw [collectRefs_eq hs] at h
  cases h
  refine ⟨⟨rfl, hknown⟩, rfl, List.forall₂_same.mpr fun p hp => ⟨rfl, known_ref ?_⟩⟩
  obtain ⟨⟨slot, key⟩, -, hp⟩ := List.mem_filterMap.mp hp
  obtain ⟨r, hr, rfl⟩ := Option.map_eq_some_iff.mp hp
  obtain ⟨rule, -, rfl⟩ := Option.map_eq_some_iff.mp hr
  exact hknown

/-- The scopes that were there and are not inside of the one that declares stay as they are. -/
def Secludes (root : ScopeId) (e e' : Engine) : Prop :=
  ∀ k t, e.scope? k = some t → ¬ e.Inside root k → e'.scope? k = some t

/-- Changing one scope inside of the one that declares. -/
theorem modifyScope_secludes (hid : e.Inside root id) (f : Scope → Scope) :
    Secludes root e (e.modifyScope id f) :=
  fun _ _ hk hout => (scope?_modifyScope_of_ne f fun heq => hout (by rwa [heq])).trans hk

/-- A step that changes one scope inside of the one that declares. -/
theorem Allots.secludes (h : Allots id e e') (hid : e.Inside root id) : Secludes root e e' :=
  fun _ _ hk hout => h.kept hk fun heq => hout (heq ▸ hid)

/-- What was not inside of the scope that declares is not inside of it later. -/
theorem Extends.inside_back (hx : Extends e e') (hl : Linked e) {t : Scope}
    (hk : e.scope? k = some t)
    (hin : e'.Inside root k) : e.Inside root k := by
  induction hin generalizing t with
  | root _ => exact .root hk
  | nested hs' howner _ ih =>
    obtain ⟨s', hs, -, ho, -⟩ := hx.scope hk
    cases hs.symm.trans hs'
    have hown := ho.symm.trans howner
    obtain ⟨-, o, hlive, -⟩ := hl.owner_child hk hown
    exact .nested hk hown (ih hlive)

/-- What is processed stays processed. -/
theorem Extends.settles (hx : Extends e e') (hk : e.Settles k) : e'.Settles k := by
  obtain ⟨t, ht, hsettled⟩ := hk
  exact ⟨t, hx.settled ht hsettled, hsettled⟩

/-- **Processing a scope** changes nothing but the scopes inside of it. -/
theorem processScope_secludes (hs : Sound (id :: roots) e) (hi : Inherits e)
    (hrun : processScope id e = (.ok (), e')) : Secludes id e e' := fun k t hk hout => by
  obtain ⟨s, hroot, -⟩ := hs.root_owner List.mem_cons_self
  have hfills : Fills (fun k => e.Inside id k ∨ e.Settles k) e (processScope id e).2 :=
    (Fills.refl hi.truthful).processWithin e.walkLimit (hs.encloses hi List.mem_cons_self)
      (.inl (.root hroot))
  have hproc := hs.pending.processScope hs
  rw [hrun] at hfills hproc
  by_cases hsettled : t.Settled
  · obtain ⟨t', ht', hp⟩ := hproc.progressed.scope hk
    rw [ht', hp.settled hsettled]
  · refine (hfills.scope? ?_).trans hk
    rintro (hin | ⟨s, hs', hsettled'⟩)
    · exact hout hin
    · cases hk.symm.trans hs'
      exact hsettled hsettled'

/-! ### What tasks leave behind -/

/-- **What declaring leaves behind:** an orderly engine that has grown, with
    other scopes as they were. -/
structure Declares (root : ScopeId) (roots : List ScopeId) (e e' : Engine) : Prop where
  orderly : Orderly (root :: roots) e'
  grows : Grows e e'
  secludes : Secludes root e e'

/-- **What reaching a definition leaves behind:** all scopes as they were. -/
structure Leaves (roots : List ScopeId) (e e' : Engine) : Prop where
  orderly : Orderly roots e'
  grows : Grows e e'
  scope {k t} : e.scope? k = some t → e'.scope? k = some t

namespace Declares

theorem refl (h : Orderly (root :: roots) e) : Declares root roots e e :=
  ⟨h, refl_of Grows e, fun _ _ hk _ => hk⟩

theorem trans {e'' : Engine} (h : Declares root roots e e') (h' : Declares root roots e' e'')
    (hl : Linked e) : Declares root roots e e'' :=
  ⟨h'.orderly, trans_of Grows h.grows h'.grows, fun k t hk hout =>
    h'.secludes k t (h.secludes k t hk hout) fun hin =>
      hout (h.grows.extended.inside_back hl hk hin)⟩

/-- A step that builds in the scope. -/
theorem builds (h : Orderly (root :: roots) e) (hbuilds : Builds Local (root :: roots) e e')
    (hev : Evolves e e') (hsecludes : Secludes root e e')
    (hsingletons : e'.singletons = e.singletons) :
    Declares root roots e e' := by
  obtain ⟨hs', hx⟩ := hbuilds.sound h.sound
  refine ⟨h.evolves hs' (hbuilds.inherits h.sound h.inherits) hev,
    ⟨hx, hev, fun hd => ?_⟩, hsecludes⟩
  rw [scopeOf?, hsingletons]
  exact hd

theorem addRule {slot : String} {rule : Rule} {r : RuleRef} (h : Orderly (root :: roots) e)
    {b : Builder} (hb : e.Inside root b.scope) (hrule : Script.Allowed Local e b.scope rule.content)
    (hadd : addRule b.scope slot rule e = (.ok r, e')) : Declares root roots e e' := by
  have heq : e' = (Engine.addRule b.scope slot rule e).2 := by rw [hadd]
  subst heq
  exact .builds h (addRule_builds hb hrule slot) (evolves_stepwise.addRule h.sound hb slot rule)
    ((addRule_allots b.scope slot rule e).secludes hb) (addRule_undisturbed _ _ _ _).singletons

theorem addUnnamedRule {rule : Rule} {r : RuleRef} (h : Orderly (root :: roots) e) {b : Builder}
    (hb : e.Inside root b.scope) (hrule : Script.Allowed Local e b.scope rule.content)
    (hadd : addUnnamedRule b.scope rule e = (.ok r, e')) : Declares root roots e e' := by
  have heq : e' = (Engine.addUnnamedRule b.scope rule e).2 := by rw [hadd]
  subst heq
  exact .builds h (addUnnamedRule_builds hb hrule) (evolves_stepwise.addUnnamedRule h.sound hb rule)
    ((addUnnamedRule_allots b.scope rule e).secludes hb)
    (addUnnamedRule_undisturbed _ _ _).singletons

theorem addReference {used : ScopeId} (h : Orderly (root :: roots) e) {b : Builder}
    (hb : e.Inside root b.scope) (hused : e.Ready used) :
    Declares root roots e (e.addReference b.scope used) :=
  .builds h (.refer hb hused (addReference_referenced b.scope used e))
    (evolves_stepwise.addReference h.sound hb hused) (modifyScope_secludes hb _)
    (singletons_modifyScope _)

/-- Only a script that runs for itself sets what its scope extends. -/
theorem setBase {μ : Type} {b : Builder} {base : ScopeId} {s s' : Engine × μ}
    (h : Orderly (root :: roots) s.1) (hb : s.1.Inside root b.scope) (hbase : s.1.Ready base)
    (hset : Script.setBase b base s = some (.ok (), s')) : Declares root roots s.1 s'.1 := by
  have hbuilds : Builds Local (root :: roots) s.1 s'.1 := Script.setBase_builds hb base _ _ hset
  unfold Script.setBase at hset
  split at hset
  · next hdepth =>
    cases hset
    exact .builds h hbuilds (evolves_stepwise.setBase h.sound hb hdepth hbase)
      (modifyScope_secludes hb _) (singletons_modifyScope _)
  · cases hset
    exact .refl h

theorem addNested {child : ScopeId} (h : Orderly (root :: roots) e) {b : Builder}
    (hb : e.Inside root b.scope) (hnest : addNested b.scope e = (.ok child, e')) :
    Declares root roots e e' ∧ e'.Inside root child := by
  obtain ⟨_, _, hnest', hbuilds, hin⟩ := addNested_builds (P := Local) h.sound.linked hb
  cases hnest.symm.trans hnest'
  have hsecludes := (addNested_allots h.sound.linked b.scope).secludes hb
  have hev : Evolves e (Engine.addNested b.scope e).2 := evolves_stepwise.group h.sound hb (.refl _)
  have hsingletons := (addNested_undisturbed b.scope e).singletons
  rw [hnest] at hsecludes hev hsingletons
  exact ⟨.builds h (hbuilds roots) hev hsecludes hsingletons, hin⟩

theorem report (h : Orderly (root :: roots) e) (event : Event) :
    Declares root roots e (e.report event) :=
  .builds h (.aside rfl rfl rfl) (.report event)
    (fun _ _ hk _ => hk) rfl

end Declares

/-- A script leaves more alone than a definition that is reached. -/
theorem Leaves.declares (h : Leaves (root :: roots) e e') : Declares root roots e e' :=
  ⟨h.orderly, h.grows, fun _ _ hk _ => h.scope hk⟩

end Engine

open Engine

variable {μ : Type} {library : Library μ} {keys : Nat → Prop} {root : ScopeId}
    {roots : List ScopeId}
  {b : Builder} {e e' : Engine}

/-- **A script stands where it declares:** the engine is orderly, and the script depends only on
    what its calls return, and reaches definitions of the family only. -/
structure Stage (keys : Nat → Prop) (root : ScopeId) (roots : List ScopeId) (script : Script μ)
    (b : Builder) (e : Engine) : Prop where
  orderly : Orderly (root :: roots) e
  inside : e.Inside root b.scope
  alike : script.Alike (e.known root) script
  stays : script.StaysIn keys

namespace Stage

variable {script : Script μ}

/-- What comes after a step. -/
theorem next {next : Script μ} (h : Stage keys root roots script b e)
    (hd : Declares root roots e e')
    (halike : next.Alike (e'.known root) next) (hstays : next.StaysIn keys) :
    Stage keys root roots next b e' :=
  ⟨hd.orderly, hd.grows.extended.inside h.inside, halike, hstays⟩

theorem add {slot : String} {rule : Rule} {next : RuleRef → Script μ} {r : RuleRef}
    (h : Stage keys root roots (.add slot rule next) b e)
    (hadd : addRule b.scope slot rule e = (.ok r, e')) :
    Declares root roots e e' ∧ Stage keys root roots (next r) b e' := by
  cases h.alike with
  | add hrule hnext =>
    have hd : Declares root roots e e' :=
      .addRule h.orderly h.inside (local_of_known hrule.content h.inside) hadd
    have hr := known_ref (.inr ((addRule_ok hadd).1 ▸ hd.grows.extended.inside h.inside))
    exact ⟨hd, h.next hd
      (hnext (known_mono hd.grows.extended root) (known_exact e' root) hr) (h.stays r)⟩

theorem addUnnamed {rule : Rule} {next : RuleRef → Script μ} {r : RuleRef}
    (h : Stage keys root roots (.addUnnamed rule next) b e)
    (hadd : addUnnamedRule b.scope rule e = (.ok r, e')) :
    Declares root roots e e' ∧ Stage keys root roots (next r) b e' := by
  cases h.alike with
  | addUnnamed hrule hnext =>
    have hd : Declares root roots e e' :=
      .addUnnamedRule h.orderly h.inside (local_of_known hrule.content h.inside) hadd
    have hr := known_ref (.inr (addUnnamedRule_ok hadd ▸ hd.grows.extended.inside h.inside))
    exact ⟨hd, h.next hd
      (hnext (known_mono hd.grows.extended root) (known_exact e' root) hr) (h.stays r)⟩

theorem find {slot : String} {next : Option RuleRef → Script μ}
    (h : Stage keys root roots (.find slot next) b e) :
    Stage keys root roots (next (e.findRule b.scope slot)) b e := by
  cases h.alike with
  | find hnext => exact ⟨h.orderly, h.inside, hnext (findRule_known h.inside), h.stays _⟩

theorem scope {next : ScopeId → Script μ} (h : Stage keys root roots (.scope next) b e) :
    Stage keys root roots (next b.scope) b e := by
  cases h.alike with
  | scope hnext => exact ⟨h.orderly, h.inside, hnext ⟨rfl, .inr h.inside⟩, h.stays _⟩

theorem nameOf {cell : NameCell} {next : Option String → Script μ} (name : Option String)
    (h : Stage keys root roots (.nameOf cell next) b e) :
    Stage keys root roots (next name) b e := by
  cases h.alike with
  | nameOf _ hnext => exact ⟨h.orderly, h.inside, hnext name, h.stays name⟩

theorem report {event : Event} {next : Script μ}
    (h : Stage keys root roots (.report event next) b e) :
    Declares root roots e (e.report event) ∧ Stage keys root roots next b (e.report event) := by
  cases h.alike with
  | report hnext =>
    have hd : Declares root roots e (e.report event) := .report h.orderly event
    exact ⟨hd, h.next hd (known_report e event root ▸ hnext) h.stays⟩

theorem remember {change : μ → μ} {next : Script μ}
    (h : Stage keys root roots (.remember change next) b e) : Stage keys root roots next b e := by
  cases h.alike with
  | remember hnext => exact ⟨h.orderly, h.inside, hnext, h.stays⟩

/-- The script of a definition of the family stands where it declares. -/
theorem definition (hcircle : Circle library keys) {definition : Nat} (hkey : keys definition)
    (ho : Orderly (root :: roots) e) (hb : e.Inside root b.scope) :
    Stage keys root roots (library definition).script b e :=
  ⟨ho, hb, hcircle.uniform hkey _ (known_exact e root) fun _ => trivial, hcircle.stays hkey⟩

/-- A definition is reached that is extended, and its script stands in the scope. -/
theorem extension (hcircle : Circle library keys) {definition : Nat} {base : ScopeId}
    {next : Except Error ScopeId → Script μ} {s s₁ s₂ : Engine × μ}
    (h : Stage keys root roots (.extend definition next) b s.1)
    (hreach : Leaves (root :: roots) s.1 s₁.1) (hready : s₁.1.Ready base)
    (hset : Script.setBase b base s₁ = some (.ok (), s₂)) :
    Declares root roots s.1 s₂.1 ∧ s₂.1.Settles base ∧
      Stage keys root roots (library definition).script { b with depth := b.depth + 1 } s₂.1 := by
  have hb₁ := hreach.grows.extended.inside h.inside
  have hd := Declares.setBase hreach.orderly hb₁ hready hset
  obtain ⟨t, ht, hsettled, -⟩ := hready
  exact ⟨hreach.declares.trans hd h.orderly.sound.linked,
    hd.grows.extended.settles ⟨t, ht, hsettled⟩,
    .definition hcircle h.stays.1 hd.orderly (hd.grows.extended.inside hb₁)⟩

/-- A definition has been extended. -/
theorem extend {definition : Nat} {next : Except Error ScopeId → Script μ} {base : ScopeId}
    (h : Stage keys root roots (.extend definition next) b e) (hd : Declares root roots e e')
    (hbase : e'.Settles base) : Stage keys root roots (next (.ok base)) b e' := by
  cases h.alike with
  | extend hnext =>
    exact h.next hd
      (hnext (known_mono hd.grows.extended root) (known_exact e' root) ⟨rfl, .inl hbase⟩)
      (h.stays.2 base)

/-- A definition is reached that is used. -/
theorem usage {definition : Nat} {next : Except Error ScopeRefs → Script μ} {used : ScopeId}
    {e₁ : Engine} (h : Stage keys root roots (.use definition next) b e)
    (hreach : Leaves (root :: roots) e e₁) (hready : e₁.Ready used) :
    Declares root roots e (e₁.addReference b.scope used) ∧
      (e₁.addReference b.scope used).Settles used := by
  have hd := Declares.addReference hreach.orderly (hreach.grows.extended.inside h.inside) hready
  obtain ⟨t, ht, hsettled, -⟩ := hready
  exact ⟨hreach.declares.trans hd h.orderly.sound.linked,
    hd.grows.extended.settles ⟨t, ht, hsettled⟩⟩

/-- The rules of a definition have been handed out. -/
theorem use {definition : Nat} {next : Except Error ScopeRefs → Script μ} {used : ScopeId}
    {refs : ScopeRefs} (h : Stage keys root roots (.use definition next) b e)
    (hd : Declares root roots e e') (hused : e'.Settles used)
    (hrefs : (collectRefs used e').1 = .ok refs) :
    Stage keys root roots (next (.ok refs)) b e' := by
  cases h.alike with
  | use hnext =>
    exact h.next hd (hnext (known_mono hd.grows.extended root) (known_exact e' root)
      (collectRefs_known hrefs hused)) (h.stays.2 refs)

/-- The script of a group stands in its scope. -/
theorem groupBody {condition : GroupCondition} {body : Script μ}
    {next : Except Error RuleRef → Script μ}
    {child : ScopeId} (h : Stage keys root roots (.group condition body next) b e)
    (hnest : addNested b.scope e = (.ok child, e')) :
    Declares root roots e e' ∧ Stage keys root roots body ⟨child, 0⟩ e' := by
  obtain ⟨hd, hin⟩ := Declares.addNested h.orderly h.inside hnest
  cases h.alike with
  | group hbody _ =>
    exact ⟨hd, hd.orderly, hin,
      hbody (known_mono hd.grows.extended root) (known_exact e' root), h.stays.1⟩

/-- A group has declared its rules, and gets a rule itself. -/
theorem group {condition : GroupCondition} {body : Script μ}
    {next : Except Error RuleRef → Script μ}
    {child : ScopeId} {r : RuleRef} {e₁ : Engine}
    (h : Stage keys root roots (.group condition body next) b e)
    (hd : Declares root roots e e₁)
    (hrule : addUnnamedRule b.scope (.ofContent (.group condition child)) e₁ = (.ok r, e')) :
    Declares root roots e e' ∧ Stage keys root roots (next (.ok r)) b e' := by
  have hb₁ := hd.grows.extended.inside h.inside
  have hd' := hd.trans (.addUnnamedRule hd.orderly hb₁ (fun _ hbody => by cases hbody) hrule)
    h.orderly.sound.linked
  have hr := known_ref (.inr (addUnnamedRule_ok hrule ▸ hd'.grows.extended.inside h.inside))
  cases h.alike with
  | group _ hnext =>
    exact ⟨hd', h.next hd' (hnext (known_mono hd'.grows.extended root) (known_exact e' root) hr)
      (h.stays.2 r)⟩

end Stage

/-! ### Definitions that are reached -/

namespace Engine

/-- **A definition gets a scope,** in which its script stands. -/
theorem Orderly.opened (hcircle : Circle library keys) {definition : Nat} (hkey : keys definition)
    (h : Orderly roots e) (hnew : e.scopeOf? (library definition).key = none) :
    Stage keys e.nextScope roots (library definition).script ⟨e.nextScope, 0⟩
        (Engine.opened (library definition) e) ∧
      Grows e (Engine.opened (library definition) e) := by
  let d := library definition
  have ho := opened_spec d h.sound
  have hallots := opened_allots d h.sound
  have hev : Evolves e (Engine.opened d e) :=
    { vacant := fun hv => hv.allots (hv.toIndexed.opened d) hallots
      layered := layered_survives.of_redeclares h.sound (opened_redeclares d h.sound.linked) rfl
      labelled := labelled_survives.of_redeclares h.sound (opened_redeclares d h.sound.linked) rfl
      anchors := .opened d h.sound
      fosters := .opened d h.sound
      kept := .allots hallots
      ages := .opened d e }
  -- A new definition has a key without an entry, so the new entry hides none that was found before.
  obtain ⟨t, ht, -⟩ := ho.sound.root_owner List.mem_cons_self
  refine ⟨.definition hcircle hkey
    (h.evolves ho.sound (h.inherits.opened h.sound ho) hev) (.root ht),
    ho.leaves, hev, fun {k id} hk => ?_⟩
  have hne : k ≠ d.key := fun heq => by
    rw [heq] at hk
    cases hk.symm.trans hnew
  show Dict.get? k (if d.multiplex then e.singletons else e.singletons.insert d.key e.nextScope) = _
  split
  · exact hk
  · exact (Dict.get?_insert_of_ne hne _ _).trans hk

/-- **Its scope is processed.** -/
theorem Orderly.processed {d : Definition μ} (h : Orderly roots e) (hs' : Sound roots e')
    (hev : Evolves e e') (hx : Extends e e') {e₁ : Engine} (hopened : Grows e (Engine.opened d e))
    (hd : Declares e.nextScope roots (Engine.opened d e) e₁)
    (hrun : processScope e.nextScope e₁.endConstruction = (.ok (), e')) : Leaves roots e e' := by
  have hs₁ := hd.orderly.sound.endConstruction
  have hi₁ : Inherits e₁.endConstruction := hd.orderly.inherits.aside rfl rfl rfl
  refine ⟨h.evolves hs' (hi₁.processed hs₁ hrun) hev, ⟨hx, hev, fun hk => ?_⟩, fun {k t} hk => ?_⟩
  · have hsame := (processScope_undisturbed e.nextScope e₁.endConstruction).singletons
    rw [hrun] at hsame
    rw [scopeOf?, hsame]
    exact hd.grows.entries (hopened.entries hk)
  · -- The scope is older than the new one, so it is not inside of it.
    have hlt := h.sound.linked.lt_nextScope hk
    have hout : ∀ {e' : Engine}, e'.Linked → ¬ e'.Inside e.nextScope k := fun hl hin =>
      absurd (hl.le_of_inside hin) (Nat.not_le.mpr hlt)
    have hkept := (opened_allots d h.sound).kept hk hlt.ne
    exact processScope_secludes hs₁ hi₁ hrun k t
      (hd.secludes k t hkept (hout (opened_spec d h.sound).sound.linked)) (hout hs₁.linked)

end Engine

/-- What a task leaves behind. -/
def Task.Secludes (keys : Nat → Prop) (s s' : Engine × μ) : Task μ → Prop
  | .declare script b => ∀ {root roots}, Stage keys root roots script b s.1 →
    Declares root roots s.1 s'.1
  | .reach definition _ => ∀ {roots}, keys definition → Orderly roots s.1 → Leaves roots s.1 s'.1

/-- **While a script proceeds, the scopes that it does not declare stay as they are,** and so do all
    scopes while a definition is reached; what was found in the engine is found there later. -/
theorem Proceeds.secluded (hcircle : Circle library keys) {task : Task μ} {s s' : Engine × μ}
    (h : Proceeds library task s s') : task.Secludes keys s s' := by
  -- One lemma for each kind of step says what it changes and what stage it leads to.
  induction h with
  | done => exact fun h => .refl h.orderly
  | add hadd rest ih =>
    intro root roots h
    obtain ⟨hd, h₁⟩ := h.add hadd
    exact hd.trans (ih h₁) h.orderly.sound.linked
  | addUnnamed hadd rest ih =>
    intro root roots h
    obtain ⟨hd, h₁⟩ := h.addUnnamed hadd
    exact hd.trans (ih h₁) h.orderly.sound.linked
  | find rest ih => exact fun h => ih h.find
  | scope rest ih => exact fun h => ih h.scope
  | @extend definition next b base s s₁ s₂ s₃ s' reached hbase extended rest ihr ihd ih =>
    intro root roots h
    -- The base was reached and processed before it is linked; its script then declares here.
    have hreach := ihr h.stays.1 h.orderly
    obtain ⟨hd₂, hbase₂, h₂⟩ :=
      h.extension hcircle hreach (reached.reach_sound h.orderly.sound).2.2 hbase
    have hd₃ := ihd h₂
    have hd := hd₂.trans hd₃ h.orderly.sound.linked
    exact hd.trans (ih (h.extend hd (hd₃.grows.extended.settles hbase₂))) h.orderly.sound.linked
  | @use definition next b used refs e m e₁ m₁ s' reached hrefs rest ihr ih =>
    intro root roots h
    obtain ⟨hd, hused⟩ :=
      h.usage (ihr h.stays.1 h.orderly) (reached.reach_sound h.orderly.sound).2.2
    exact hd.trans (ih (h.use hd hused hrefs)) h.orderly.sound.linked
  | @group condition body next b child r e m e₁ e₂ m₂ e₃ s' hchild grouped hrule rest ihb ih =>
    intro root roots h
    -- The nested scope is inside of the script's own, so what its body changes is declared as well.
    obtain ⟨hd₁, hbody⟩ := h.groupBody hchild
    have hd₂ := hd₁.trans (ihb hbody) h.orderly.sound.linked
    obtain ⟨hd₃, h₃⟩ := h.group hd₂ hrule
    exact hd₃.trans (ih h₃) h.orderly.sound.linked
  | nameOf rest ih => exact fun h => ih (h.nameOf _)
  | report rest ih =>
    intro root roots h
    obtain ⟨hd, h₁⟩ := h.report
    exact hd.trans (ih h₁) h.orderly.sound.linked
  | look => exact fun h => nomatch h.alike
  | remember rest ih => exact fun h => ih h.remember
  | known => exact fun _ h => ⟨h, refl_of Grows _, id⟩
  | @new definition e m e₁ m₁ e' hnew hkey declared hproc ih =>
    intro roots hkeys h
    -- Within its own script the definition is the first root; outside it is one scope more.
    obtain ⟨hstage, hgrows⟩ := h.opened hcircle hkeys hnew
    have hreach : Proceeds library (.reach definition e.nextScope) (e, m) (e', m₁) :=
      .new hnew hkey declared hproc
    obtain ⟨hs', hx, -⟩ := hreach.reach_sound h.sound
    exact h.processed hs' (hreach.reach_stepwise evolves_stepwise h.sound) hx hgrows
      (ih hstage) hproc

end StyleBook
