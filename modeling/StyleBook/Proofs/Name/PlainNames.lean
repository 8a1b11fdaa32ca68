import StyleBook.Proofs.Order.Ages
import StyleBook.Proofs.Script.Successes
import StyleBook.Proofs.Script.Uniform

namespace StyleBook

/-!
# Names that are plain

Definitions that are called differently get the scope names that they ask for. If the scope's name
and the slot joined are different texts for all slots that names are made for, then every readable
name is that text, and no number is ever taken.

* `Engine.Generated`, `Engine.Distinct` — the slots that names were made for, and
  that their texts differ;
* `Engine.Proper` — the scopes of definitions are called what they asked for,
  and names in use are plain;
* `Proceeds.proper` — that is so as long as no call fails.
-/

namespace Scope

/-- The scope is called the same and nested where it was, and the slots with names have names. -/
structure Titled (s s' : Scope) : Prop where
  name : s'.name = s.name
  owner : s'.owner = s.owner
  named (slot : String) : (s.nameOf? slot).isSome → (s'.nameOf? slot).isSome

instance : IsPreorder Scope Titled where
  refl _ := ⟨rfl, rfl, fun _ => id⟩
  trans _ _ _ h h' :=
    ⟨h'.name.trans h.name, h'.owner.trans h.owner, fun slot => h'.named slot ∘ h.named slot⟩

/-- One more name, or another one. -/
theorem titled_insert (slot name : String) (s : Scope) :
    Titled s { s with names := s.names.insert slot name } := by
  refine ⟨rfl, rfl, fun other h => ?_⟩
  show ((s.names.insert slot name).get? other).isSome = true
  rw [Dict.get?_insert]
  split
  · rfl
  · exact h

/-- A change of something else. -/
theorem titled_of_names {s s' : Scope} (hname : s'.name = s.name) (howner : s'.owner = s.owner)
    (hnames : s'.names = s.names) : Titled s s' := by
  refine ⟨hname, howner, fun slot => ?_⟩
  unfold nameOf?
  rw [hnames]
  exact id

/-- What is merged has its names. -/
theorem Remerged.titled {s s' : Scope} (h : Remerged s s') : Titled s s' := by
  rw [h.eq_rules]
  exact titled_of_names rfl rfl rfl

/-- So has what is declared. -/
theorem Redeclared.titled {B : ScopeId → Prop} {s s' : Scope}
    (h : Redeclared B s s') : Titled s s' :=
  titled_of_names h.name h.owner h.names

end Scope

namespace Engine

variable {start e e' : Engine} {id : ScopeId} {slot : String}

/-- **A name was made for a slot of a scope** that is called so, since the start. -/
def Generated (start e : Engine) (scope slot : String) : Prop :=
  ∃ name later, e.ambient.events = later ++ start.ambient.events ∧
  .nameGenerated scope slot name ∈ later

/-- **The scope's name and the slot, joined, are different texts** for different slots that names
    were made for. -/
def Distinct (start e : Engine) : Prop :=
  ∀ scope slot scope' slot', Generated start e scope slot → Generated start e scope' slot' →
    scope ++ "_" ++ slot = scope' ++ "_" ++ slot' → scope = scope' ∧ slot = slot'

/-- What was generated stays so. -/
theorem Ages.generated (h : Ages e e') {scope slot : String} (hg : Generated start e scope slot) :
    Generated start e' scope slot := by
  obtain ⟨name, later, hlater, hmem⟩ := hg
  obtain ⟨more, hmore⟩ := h.events
  exact ⟨name, more ++ later, by rw [← hmore, hlater, List.append_assoc],
    List.mem_append_right _ hmem⟩

/-- If all texts are distinct later, they are now. -/
theorem Ages.distinct (h : Ages e e') (hd : Distinct start e') : Distinct start e :=
  fun _ _ _ _ hg hg' => hd _ _ _ _ (h.generated hg) (h.generated hg')

/-- Scopes that are not nested are called differently. -/
def RootsDiffer (e : Engine) : Prop :=
  ∀ {k j s t}, e.scope? k = some s → s.owner = none → e.scope? j = some t → t.owner = none →
    s.name = t.name → k = j

/-- **Readable names are plain,** and no number was taken since the start. -/
structure Plain (start e : Engine) : Prop where
  since : Ages start e
  mode : e.naming.mode = .readable
  nextId : e.naming.nextId = start.naming.nextId
  used {name} : name ∈ e.naming.used → ∃ k s slot, e.scope? k = some s ∧ s.owner = none ∧
    (s.nameOf? slot).isSome ∧ Generated start e s.name slot ∧ name = s.name ++ "_" ++ slot

/-- Reports are put in front, the last one first. -/
theorem events_reportAll (events : List Event) (e : Engine) :
    (e.reportAll events).ambient.events = events.reverse ++ e.ambient.events := by
  induction events generalizing e with
  | nil => rfl
  | cons event rest ih =>
    rw [List.reverse_cons, List.append_assoc]
    exact ih (e.report event)

/-- It is so after a step that gives no names. -/
theorem Plain.carried (hp : Plain start e) (hc : Carries (fun _ => Scope.Titled) e e')
    (ha : Ages e e')
    (hused : e'.naming.used = e.naming.used) (hnext : e'.naming.nextId = e.naming.nextId) :
    Plain start e' where
  since := trans_of Ages hp.since ha
  mode := ha.mode.trans hp.mode
  nextId := hnext.trans hp.nextId
  used hname := by
    rw [hused] at hname
    obtain ⟨k, s, slot, hs, ho, hnamed, hg, rfl⟩ := hp.used hname
    obtain ⟨s', hs', htitled⟩ := hc k s hs
    exact ⟨k, s', slot, hs', htitled.owner.trans ho, htitled.named slot hnamed,
      htitled.name ▸ ha.generated hg, by rw [htitled.name]⟩

/-! ### Processing -/

/-- No scope of a definition is new, and all are called the same. -/
structure KeepsTitles (e e' : Engine) : Prop where
  scopes : Carries (fun _ => Scope.Titled) e e'
  root {k s'} : e'.scope? k = some s' → s'.owner = none → ∃ s, e.scope? k = some s
  singletons : e'.singletons = e.singletons
  scopeNames : e'.naming.scopeNames = e.naming.scopeNames
  ages : Ages e e'

namespace KeepsTitles

instance : IsPreorder Engine KeepsTitles where
  refl e := ⟨.refl e, fun h _ => ⟨_, h⟩, rfl, rfl, refl_of Ages e⟩
  trans e e₁ e₂ h h' :=
    { scopes := h.scopes.trans h'.scopes
      root := fun {k s''} hs'' ho => by
        obtain ⟨s', hs'⟩ := h'.root hs'' ho
        obtain ⟨t, ht, htitled⟩ := h'.scopes k s' hs'
        cases hs''.symm.trans ht
        exact h.root hs' (htitled.owner.symm.trans ho)
      singletons := h'.singletons.trans h.singletons
      scopeNames := h'.scopeNames.trans h.scopeNames
      ages := trans_of Ages h.ages h'.ages }

/-- Changes that leave the titles of scopes alone. -/
theorem rescoped (hr : Rescoped (fun _ => Scope.Titled) e e')
    (hscopes : e'.naming.scopeNames = e.naming.scopeNames) (ha : Ages e e') : KeepsTitles e e' where
  scopes := .rescoped hr fun _ _ _ h => h
  root hs' _ := by
    obtain ⟨s, hs, -⟩ := hr.back hs'
    exact ⟨s, hs⟩
  singletons := hr.singletons
  scopeNames := hscopes
  ages := ha

/-- Scopes of definitions stay what they were called. -/
theorem rootsDiffer (h : KeepsTitles e e') (hd : e.RootsDiffer) : e'.RootsDiffer :=
  fun {k j s' t'} hs' ho ht' ho' hname => by
    obtain ⟨s, hs⟩ := h.root hs' ho
    obtain ⟨t, ht⟩ := h.root ht' ho'
    obtain ⟨_, hk, htitled⟩ := h.scopes k s hs
    cases hk.symm.trans hs'
    obtain ⟨_, hj, htitled'⟩ := h.scopes j t ht
    cases hj.symm.trans ht'
    exact hd hs (htitled.owner.symm.trans ho) ht (htitled'.owner.symm.trans ho')
      (htitled.name.symm.trans (hname.trans htitled'.name))

end KeepsTitles

/-- A step of processing, which makes plain names as long as their texts differ. -/
structure NamesPlainly (start e e' : Engine) : Prop where
  keeps : KeepsTitles e e'
  plain : e.RootsDiffer → Distinct start e' → Plain start e → Plain start e'

namespace NamesPlainly

instance : IsPreorder Engine (NamesPlainly start) where
  refl e := ⟨refl_of KeepsTitles e, fun _ _ h => h⟩
  trans _ _ _ h h' := ⟨trans_of KeepsTitles h.keeps h'.keeps, fun hd hdistinct hp =>
    h'.plain (h.keeps.rootsDiffer hd) hdistinct (h.plain hd (h'.keeps.ages.distinct hdistinct) hp)⟩

/-- A step that gives no names. -/
theorem of_keeps (h : KeepsTitles e e') (hnaming : e'.naming = e.naming) :
    NamesPlainly start e e' where
  keeps := h
  plain _ _ hp := hp.carried h.scopes h.ages (by rw [hnaming]) (by rw [hnaming])

/-- A change of scopes that calls them the same. -/
theorem modifyScope {f : Scope → Scope} (hf : ∀ s, e.scope? id = some s → Scope.Titled s (f s)) :
    NamesPlainly start e (e.modifyScope id f) :=
  .of_keeps (.rescoped (.modifyScope hf) (by rw [(Touched.modifyScope f).naming])
    (.modifyScope id f e))
    (Touched.modifyScope f).naming

/-- A report makes no names. -/
theorem report (event : Event) (e : Engine) : NamesPlainly start e (e.report event) :=
  .of_keeps (.rescoped (.report event) rfl (.report event e)) rfl

/-- **A new name for a slot** of a scope that is not nested is plain. -/
theorem generate {s : Scope} (hs : e.scope? id = some s) (ho : s.owner = none)
    (hslot : s.nameOf? slot = none) (name : String) :
    NamesPlainly start e ((generateName s.name slot e).2.modifyScope id
      fun s => { s with names := s.names.insert slot name }) := by
  let g := e.naming.generate s.name slot
  let f : Scope → Scope := fun s => { s with names := s.names.insert slot name }
  generalize he₁ : (generateName s.name slot e).2 = e₁
  have hages : Ages e e₁ := he₁ ▸ Ages.generateName s.name slot e
  have hr : Rescoped (fun _ => Scope.Titled) e e₁ := he₁ ▸ Rescoped.generateName e s.name slot
  have hs₁ : e₁.scope? id = some s := by
    obtain rfl := he₁
    show Dict.get? id (Engine.reportAll _ _).scopes = _
    rw [scopes_reportAll]
    exact hs
  have hnaming : e₁.naming = g.naming := by
    obtain rfl := he₁
    exact (Touched.reportAll (g.events s.name slot)).naming
  have hgenerated : Ages start e → Generated start e₁ s.name slot := fun hsince => by
    obtain rfl := he₁
    obtain ⟨before, hbefore⟩ := hsince.events
    refine ⟨g.name, (g.events s.name slot).reverse ++ before, ?_, ?_⟩
    · show (Engine.reportAll (g.events s.name slot) _).ambient.events = _
      rw [events_reportAll, List.append_assoc, hbefore]
    · exact List.mem_append_left _
        (List.mem_reverse.mpr (List.mem_append_right _ (List.mem_singleton_self _)))
  have hkeeps : KeepsTitles e e₁ := .rescoped hr (by rw [hnaming, Naming.generate_scopeNames]) hages
  have hnames : NamesPlainly start e₁ (e₁.modifyScope id f) :=
    .modifyScope fun t _ => Scope.titled_insert slot name t
  refine ⟨trans_of KeepsTitles hkeeps hnames.keeps, fun hd hdistinct hp => ?_⟩
  -- The name is plain, as scope and slot joined are free; a text that is in use is the other case.
  rcases Naming.generate_readable hp.mode s.name slot with ⟨hplain, hid, -⟩ | ⟨-, htaken⟩
  · exact
      { since := trans_of Ages hp.since (trans_of Ages hages hnames.keeps.ages)
        mode := hnames.keeps.ages.mode.trans (hages.mode.trans hp.mode)
        nextId := by rw [(Touched.modifyScope f).naming, hnaming, hid, hp.nextId]
        used := fun {used} hused => by
          rw [(Touched.modifyScope f).naming, hnaming, Naming.generate_used, hplain] at hused
          rcases List.mem_cons.mp hused with rfl | hold
          · refine ⟨id, f s, slot, scope?_modifyScope_self f hs₁, ho, ?_,
              hnames.keeps.ages.generated (hgenerated hp.since), rfl⟩
            exact congrArg Option.isSome (Dict.get?_insert_self slot name s.names)
          · obtain ⟨k, t, slot', ht, ho', hnamed, hg, htext⟩ := hp.used hold
            obtain ⟨t', ht', htitled⟩ := (trans_of KeepsTitles hkeeps hnames.keeps).scopes k t ht
            exact ⟨k, t', slot', ht', htitled.owner.trans ho', htitled.named slot' hnamed,
              htitled.name ▸ (trans_of Ages hages hnames.keeps.ages).generated hg,
              by rw [htitled.name, htext]⟩ }
  · -- The text is in use, so a name was made for the same slot of the same scope.
    obtain ⟨k, t, slot', ht, ho', hnamed, hg, htext⟩ := hp.used htaken
    have hdistinct₁ := hnames.keeps.ages.distinct hdistinct
    obtain ⟨hname, rfl⟩ := hdistinct₁ _ _ _ _ (hgenerated hp.since) (hages.generated hg) htext
    obtain rfl := hd hs ho ht ho' hname
    cases hs.symm.trans ht
    rw [hslot] at hnamed
    cases hnamed

/-- The names of slots. -/
theorem nameForWithin (limit : Nat) (id : ScopeId) (slot : String) (e : Engine) :
    NamesPlainly start e (nameForWithin limit id slot e).2 := by
  induction limit generalizing id e with
  | zero => exact refl_of (NamesPlainly start) e
  | succ limit ih =>
    have hinsert : ∀ (name : String) (e₁ : Engine), NamesPlainly start e₁ (e₁.modifyScope id
        fun s => { s with names := s.names.insert slot name }) := fun name e₁ =>
      .modifyScope fun s _ => Scope.titled_insert slot name s
    rw [nameForWithin_succ]
    -- The scope is looked up, then its own names, and then its owner or what it extends.
    cases hs : e.scope? id with
    | none =>
      rw [stateful_bind_error (requireScope_none hs)]
      exact refl_of (NamesPlainly start) e
    | some s =>
      rw [stateful_bind_ok (requireScope_some hs)]
      cases hslot : s.nameOf? slot with
      | some name => exact refl_of (NamesPlainly start) e
      | none =>
        cases ho : s.owner with
        | some o =>
          rw [foundName_some ho]
          exact Steps.bind (R := NamesPlainly start) (ih o e) fun name e₁ _ =>
            .bind (.modify (hinsert name e₁)) fun _ e₂ _ => .pure name e₂
        | none =>
          unfold foundName
          rw [ho]
          simp only [stateful_bind, stateful_get]
          cases e.inheritedWithin slot e.walkLimit s.base with
          | error err => exact refl_of (NamesPlainly start) e
          | ok found =>
            cases found with
            | some name => exact hinsert name e
            | none => exact generate hs ho hslot _

/-- Filling a place makes no name. -/
theorem placeName (cell : Option Nat) (name slot : String) (e : Engine) :
    Steps (NamesPlainly start) (placeName cell name slot) e := by
  cases cell with
  | none => exact .throw _ e
  | some cell =>
    show NamesPlainly start e (fillCell cell name slot e).2
    unfold fillCell
    cases e.cells.get? cell with
    | some _ => exact refl_of (NamesPlainly start) e
    | none => exact .of_keeps (.rescoped (.of_scopes_eq rfl rfl rfl) rfl
        (.of_eq rfl rfl rfl rfl)) rfl

/-- Naming a rule makes plain names. -/
theorem assignName (id : ScopeId) (key : Nat) (e : Engine) :
    NamesPlainly start e (assignName id key e).2 :=
  assignName_steps (fun rule slot _ _ _ => by
    unfold ruleName
    cases rule.explicitName with
    | some name =>
      exact .bind (.modify (.modifyScope fun s _ => Scope.titled_insert slot name s)) fun _ e₁ _ =>
        .pure name e₁
    | none => exact nameForWithin _ id slot e) placeName

/-- Merging makes none. -/
theorem mergeAt (id : ScopeId) (key : Nat) (e : Engine) : NamesPlainly start e
    (mergeAt id key e).2 :=
  have ht := mergeAt_touched id key e
  .of_keeps (.rescoped ((mergeAt_remerged id key e).mono fun _ _ _ _ h => h.titled)
    (by rw [ht.naming]) (.mergeAt id key e)) ht.naming

/-- **Processing makes plain names,** as long as their texts differ. -/
theorem processScope (id : ScopeId) (e : Engine) : NamesPlainly start e (processScope id e).2 :=
  processWithin_steps assignName mergeAt
    (fun _ _ => .modifyScope fun _ _ => Scope.titled_of_names rfl rfl rfl)
    (fun _ _ => .modifyScope fun _ _ => Scope.titled_of_names rfl rfl rfl) report e.walkLimit id e

end NamesPlainly

/-! ### Declaring -/

variable {μ : Type} {library : Library μ} {keys : Nat → Prop} {roots : List ScopeId}

/-- **Names of scopes are those that definitions ask for** which have a scope. -/
def Registered (library : Library μ) (keys : Nat → Prop) (e : Engine) : Prop :=
  ∀ name ∈ e.naming.scopeNames, ∃ key id, keys key ∧ e.scopeOf? key = some id ∧
    name = (library key).scopeName

/-- **All names are plain.** -/
structure Proper (library : Library μ) (keys : Nat → Prop) (start e : Engine) : Prop where
  unnamed : e.Unnamed
  credits : ∃ calls, Credits start.naming calls e
  registered : Registered library keys e
  plain : Plain start e

/-- A step that keeps names plain, as long as their texts differ. -/
structure NamesProperly (library : Library μ) (keys : Nat → Prop) (start e e' : Engine) : Prop where
  ages : Ages e e'
  proper : Distinct start e' → Proper library keys start e → Proper library keys start e'

namespace NamesProperly

/-- Nothing has happened. -/
theorem refl (e : Engine) : NamesProperly library keys start e e := ⟨refl_of Ages e, fun _ h => h⟩

/-- One change after the other. -/
theorem trans {e'' : Engine} (h : NamesProperly library keys start e e')
    (h' : NamesProperly library keys start e' e'') : NamesProperly library keys start e e'' :=
  ⟨trans_of Ages h.ages h'.ages, fun hd hp => h'.proper hd (h.proper (h'.ages.distinct hd) hp)⟩

/-- A step that gives no names. -/
theorem step (ht : Tracks start.naming e e') (hc : Carries (fun _ => Scope.Titled) e e')
    (ha : Ages e e')
    (hnaming : e'.naming = e.naming) (hsingletons : e'.singletons = e.singletons) :
    NamesProperly library keys start e e' where
  ages := ha
  proper _ hp := by
    obtain ⟨calls, hcalls⟩ := hp.credits
    obtain ⟨hunnamed, hadvances⟩ := ht hp.unnamed
    obtain ⟨calls', -, hcalls'⟩ := hadvances calls hcalls
    refine ⟨hunnamed, ⟨calls', hcalls'⟩, fun name hname => ?_,
      hp.plain.carried hc ha (by rw [hnaming]) (by rw [hnaming])⟩
    rw [hnaming] at hname
    obtain ⟨key, id, hkey, hid, htext⟩ := hp.registered name hname
    exact ⟨key, id, hkey, by rw [scopeOf?, hsingletons]; exact hid, htext⟩

/-- A step that declares in a scope. -/
theorem redeclared {B : ScopeId → Prop} (ht : Tracks start.naming e e')
    (hr : Rescoped (fun _ => Scope.Redeclared B) e e') (ha : Ages e e')
    (hnaming : e'.naming = e.naming) : NamesProperly library keys start e e' :=
  .step ht (.rescoped hr fun _ _ _ h => h.titled) ha hnaming hr.singletons

/-- **Every step of a script** keeps names proper: none of them makes a name. -/
theorem scripted : Scripted (fun _ => NamesProperly library keys start)
    (fun _ _ => NamesProperly library keys start) where
  refl := .refl _
  trans := .trans
  report {_ b e} event :=
    .redeclared (B := fun _ => True)
    (@(tracks_stepwise start.naming).report [] b e event) (.report event)
      (.report event _) rfl
  addRule hs hb slot rule :=
    have hr := addRule_redeclared (B :=
      fun _ => True) (hs.unsettled List.mem_cons_self hb) slot rule
    .redeclared ((tracks_stepwise start.naming).addRule hs hb slot rule) hr.1
    (.addRule _ slot rule _) hr.2
  addUnnamedRule hs hb rule :=
    have hr := addUnnamedRule_redeclared (B :=
      fun _ => True) (hs.unsettled List.mem_cons_self hb) rule
    .redeclared ((tracks_stepwise start.naming).addUnnamedRule hs hb rule)
    hr.1 (.addUnnamedRule _ rule _) hr.2
  setBase hs hb hdepth hready :=
    .redeclared ((tracks_stepwise start.naming).setBase hs hb hdepth hready)
      (setBase_redeclared (B := fun _ => True) (hs.unsettled List.mem_cons_self hb) trivial)
      (.modifyScope _ _ _) (Touched.modifyScope _).naming
  addReference hs hb hready :=
    have hr := addReference_redeclared (B := fun _ => True) (hs.unsettled List.mem_cons_self hb) _
    .redeclared ((tracks_stepwise start.naming).addReference hs hb hready) hr.1
    (.modifyScope _ _ _) hr.2
  process _ _ h := h
  declare h := h
  group {_ _ b e _} hs hb h :=
    have hstep : NamesProperly library keys start e (addNested b.scope e).2 :=
      .step (addNested_tracks hs (hs.unsettled List.mem_cons_self hb))
        (.nested hs.linked fun _ _ => Scope.titled_of_names rfl rfl rfl) (.addNested _ _)
        (addNested_naming _ _) (addNested_undisturbed _ _).singletons
    hstep.trans h

/-- **A definition that has no scope gets the name that it asks for,** if no
    other one asks for it. -/
theorem opened (hfamily : Family library keys) {key : Nat} (hkey : keys key) (hs : Sound roots e)
    (hnew : e.scopeOf? (library key).key = none) :
    NamesProperly library keys start e (opened (library key) e) := by
  refine ⟨.opened (library key) e, fun _ hp => ?_⟩
  obtain ⟨calls, hcalls⟩ := hp.credits
  obtain ⟨hunnamed, hadvances⟩ := opened_tracks (library key) hs hp.unnamed
  obtain ⟨calls', -, hcalls'⟩ := hadvances calls hcalls
  -- The name would be that of another definition with a scope, and names of definitions differ.
  have hfree : (library key).scopeName ∉ e.naming.scopeNames := fun hmem => by
    obtain ⟨key', id, hkey', hid, htext⟩ := hp.registered _ hmem
    obtain rfl := hfamily.scopeName_inj hkey hkey' htext
    rw [hfamily.key hkey] at hnew
    cases hid.symm.trans hnew
  have hreserved : e.naming.reserve (library key).scopeName (library key).multiplex =
      ((library key).scopeName,
        { e.naming with scopeNames := (library key).scopeName :: e.naming.scopeNames }) := by
    unfold Naming.reserve
    rw [hfamily.single hkey]
    simp only [Bool.false_or, decide_eq_true_eq, if_neg hfree]
  have hnaming : (Engine.opened (library key) e).naming =
      { e.naming with scopeNames := (library key).scopeName :: e.naming.scopeNames } :=
    congrArg Prod.snd hreserved
  refine ⟨hunnamed, ⟨calls', hcalls'⟩, fun name hname => ?_, hp.plain.carried
    (.opened (library key) hs) (.opened (library key) e) (by rw [hnaming]) (by rw [hnaming])⟩
  have hsingletons : (Engine.opened (library key) e).singletons = e.singletons.insert key
    e.nextScope := by
    show (if (library key).multiplex then _ else _) = _
    rw [hfamily.single hkey, hfamily.key hkey]
    rfl
  simp only [scopeOf?, hsingletons]
  rw [hnaming] at hname
  -- The name is the one that was just reserved, or was reserved for a definition that has a scope.
  rcases List.mem_cons.mp hname with rfl | hold
  · exact ⟨key, e.nextScope, hkey, Dict.get?_insert_self key e.nextScope e.singletons, rfl⟩
  · obtain ⟨key', id, hkey', hid, htext⟩ := hp.registered name hold
    have hne : key' ≠ key := fun heq => by
      rw [heq] at hid
      rw [hfamily.key hkey] at hnew
      cases hid.symm.trans hnew
    exact ⟨key', id, hkey', (Dict.get?_insert_of_ne hne _ _).trans hid, htext⟩

end NamesProperly

end Engine

open Engine

/-- **Names stay plain where no call fails,** as long as their texts differ. -/
theorem Proceeds.proper {μ : Type} {library : Library μ} {keys : Nat → Prop}
    (hfamily : Family library keys) {task : Task μ} {s s' : Engine × μ}
    (h : Proceeds library task s s') (start : Engine) :
    task.Along keys (fun _ => NamesProperly library keys start)
      (fun _ _ => NamesProperly library keys start) s s' :=
  h.along NamesProperly.scripted (.refl _) hfamily.stays
    fun {roots definition e e₁ e'} hkey hs hnew hs₁ hscript hproc => by
      have hend : Ages e₁ e₁.endConstruction := .of_eq rfl rfl rfl rfl
      have hnames := @NamesPlainly.processScope start e.nextScope e₁.endConstruction
      rw [hproc] at hnames
      -- The script ran and made names properly; now its scope is processed, which makes plain ones.
      have hopened : NamesProperly library keys start e e₁ :=
        (NamesProperly.opened hfamily hkey hs hnew).trans hscript
      refine ⟨trans_of Ages hopened.ages (trans_of Ages hend hnames.keeps.ages),
        fun hdistinct hp => ?_⟩
      have hp₁ := (hopened.trans (.step (.endConstruction hs₁) (.refl _) hend rfl rfl)).proper
        (hnames.keeps.ages.distinct hdistinct) hp
      obtain ⟨calls, hcalls⟩ := hp₁.credits
      obtain ⟨hunnamed, hadvances⟩ := processed_tracks hs₁.endConstruction hproc hp₁.unnamed
      obtain ⟨calls', -, hcalls'⟩ := hadvances calls hcalls
      refine ⟨hunnamed, ⟨calls', hcalls'⟩, fun name hname => ?_,
        hnames.plain hcalls.root_inj hdistinct hp₁.plain⟩
      rw [hnames.keeps.scopeNames] at hname
      obtain ⟨key, id, hkey', hid, htext⟩ := hp₁.registered name hname
      exact ⟨key, id, hkey', by rw [scopeOf?, hnames.keeps.singletons]; exact hid, htext⟩

end StyleBook
