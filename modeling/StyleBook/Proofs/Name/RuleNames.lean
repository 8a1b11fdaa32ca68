import StyleBook.Proofs.Name.HandedDown

namespace StyleBook

/-!
# The names of rules

The name of a rule stands in two places: in that of the rule, and among the names of its scope,
under the rule's slot. Both get it when the scope is processed. What is there stays, but a rule that
spells a name puts it in the place of the one that its slot has.

* `Scope.KeepsNames`, `Engine.KeepsPlaces` — names that are there stay;
* `Scope.LabelledTo` — the first rules of a scope have names, and their slots have the same ones,
  unless other ones were spelled later;
* `Engine.forEach_assignName_labelled` — after these steps for all rules of a scope, all of them
  have names.
-/

/-- The rule spells a name for the slot. -/
def Rule.Spells (slot : String) (r : Rule) : Prop :=
  r.slot = some slot ∧ r.kind.isNamed = true ∧ r.explicitName.isSome = true

instance (slot : String) (r : Rule) : Decidable (r.Spells slot) :=
  inferInstanceAs (Decidable (_ ∧ _ ∧ _))

/-- What a rule inherits does not matter to the names it spells. -/
theorem Rule.Remerged.spells {r r' : Rule} {slot : String} (h : r.Remerged r') :
    r'.Spells slot ↔ r.Spells slot := by
  rcases h with rfl | ⟨-, -, m, rfl⟩ <;> exact .rfl

namespace Scope

/-- The names that the scope has are kept. -/
def KeepsNames (s s' : Scope) : Prop :=
  ∀ slot name, s.nameOf? slot = some name → s'.nameOf? slot = some name

instance : IsPreorder Scope KeepsNames where
  refl _ _ _ := id
  trans _ _ _ h h' slot name := h' slot name ∘ h slot name

/-- The scope gets a name for a slot that has none, or has that name. -/
theorem keepsNames_insert {s : Scope} {slot name : String}
    (h : ∀ other, s.nameOf? slot = some other → other = name) :
    KeepsNames s { s with names := s.names.insert slot name } := fun slot' other hother => by
  rw [nameOf?_insert]
  split
  · next heq => rw [h other (heq ▸ hother)]
  · exact hother

/-- Names that are not changed are kept. -/
theorem Resourced.keepsNames {s s' : Scope} (h : Resourced False s s') : KeepsNames s s' :=
  fun slot _ hname => (h.nameOf? not_false slot).trans hname

/-- **The first rules of the scope have names,** if they are of a named kind and have slots: those
    that they spell, if they do. So have these slots: the same ones, unless a rule behind spells
    another one. -/
def LabelledTo (count : Nat) (names : Names) (s : Scope) : Prop :=
  ∀ key rule slot, key < count → s.rules[key]? = some rule → rule.slot = some slot →
    rule.kind.isNamed = true → ∃ name, rule.name? names = some name ∧
      (∀ spelled, rule.explicitName = some spelled → name = spelled) ∧
      ((∀ later < count, key < later → ∀ r, s.rules[later]? = some r → ¬ r.Spells slot) →
        s.nameOf? slot = some name)

/-- All its rules do. -/
abbrev Labelled (names : Names) (s : Scope) : Prop := s.LabelledTo s.rules.length names

/-- The scope is changed, but not in its links, and its rules only in what they inherit. It gets
    names only if it is `near`, and keeps its names and its state unless it is one of those whose
    turn it is, its `own`. -/
structure Dubbed (near own : Prop) (s s' : Scope) : Prop where
  resourced : Resourced near s s'
  length_eq : s'.rules.length = s.rules.length
  rule {key : Nat} {r : Rule} :
    s.rules[key]? = some r → ∃ r', s'.rules[key]? = some r' ∧ r.Remerged r'
  keeps : ¬ own → KeepsNames s s'
  state : ¬ own → s'.state = s.state

variable {near own near' own' : Prop} {s s' : Scope} {names names' : Names} {count : Nat}

namespace Dubbed

instance : IsPreorder Scope (Dubbed near own) where
  refl s := ⟨refl_of (Resourced near) s, rfl, fun hr => ⟨_, hr, .inl rfl⟩,
    fun _ => refl_of KeepsNames s, fun _ => rfl⟩
  trans _ _ _ h h' :=
    { resourced := trans_of (Resourced near) h.resourced h'.resourced
      length_eq := h'.length_eq.trans h.length_eq
      rule := fun hr => by
        obtain ⟨r', hr', hR⟩ := h.rule hr
        obtain ⟨r'', hr'', hR'⟩ := h'.rule hr'
        exact ⟨r'', hr'', hR.trans hR'⟩
      keeps := fun hn => trans_of KeepsNames (h.keeps hn) (h'.keeps hn)
      state := fun hn => (h'.state hn).trans (h.state hn) }

/-- With less said about which scopes may get names. -/
theorem mono (h : Dubbed near own s s') (hnear : near → near') (hown : own → own') :
    Dubbed near' own' s s' :=
  { h with
    resourced := h.resourced.mono hnear
    keeps := fun hn => h.keeps fun ho => hn (hown ho)
    state := fun hn => h.state fun ho => hn (hown ho) }

/-- A rule of the changed scope was a rule before. -/
theorem back (h : Dubbed near own s s') {key : Nat} {r' : Rule} (hr' : s'.rules[key]? = some r') :
    ∃ r, s.rules[key]? = some r ∧ r.Remerged r' := by
  have hlt : key < s.rules.length := by
    rw [← h.length_eq]
    exact (List.getElem?_eq_some_iff.mp hr').1
  obtain ⟨r'', hr'', hR⟩ := h.rule (List.getElem?_eq_getElem hlt)
  cases hr'.symm.trans hr''
  exact ⟨_, List.getElem?_eq_getElem hlt, hR⟩

end Dubbed

/-- A scope that gets names, and keeps those it has unless it is its own turn. -/
theorem Renamed.dubbed (h : Renamed near s s') (hkeeps : ¬ own → KeepsNames s s') :
    Dubbed near own s s' where
  resourced := h.resourced
  length_eq := by rw [h.rules]
  rule hr := ⟨_, by rw [h.rules]; exact hr, .inl rfl⟩
  keeps := hkeeps
  state _ := by rw [h.eq_names]

/-- What rules inherit is filled in. -/
theorem Remerged.dubbed (h : Remerged s s') : Dubbed near own s s' where
  resourced := h.resourced
  length_eq := h.length_eq
  rule := h.rule
  keeps _ := Resourced.keepsNames h.resourced
  state _ := by rw [h.eq_rules]

/-- Rules that have names keep them, and so do their slots, while names stay where they are. -/
theorem LabelledTo.dubbed (h : s.LabelledTo count names) (hd : Dubbed near own s s')
    (hkeeps : KeepsNames s s') (hnames : ∀ cell name, names cell = some name →
      names' cell = some name) : s'.LabelledTo count names' := by
  intro key rule' slot hlt hr' hslot hkind
  obtain ⟨rule, hr, hR⟩ := hd.back hr'
  obtain ⟨hslot', hcell, hkind', hexplicit⟩ :
      rule.slot = some slot ∧ rule'.cell = rule.cell ∧ rule.kind.isNamed = true ∧
        rule'.explicitName = rule.explicitName := by
    rcases hR with rfl | ⟨-, -, m, rfl⟩ <;> exact ⟨hslot, rfl, hkind, rfl⟩
  obtain ⟨name, hname, hspelled, hlast⟩ := h key rule slot hlt hr hslot' hkind'
  refine ⟨name, ?_, hexplicit ▸ hspelled,
    fun hnone => hkeeps slot name (hlast fun later hlater hbehind r hrule hspells => ?_)⟩
  · obtain ⟨cell, hc, hplace⟩ := Option.bind_eq_some_iff.mp hname
    exact Option.bind_eq_some_iff.mpr ⟨cell, hcell.trans hc, hnames cell name hplace⟩
  · obtain ⟨r', hrule', hR'⟩ := hd.rule hrule
    exact hnone later hlater hbehind r' hrule' (hR'.spells.mpr hspells)

end Scope

namespace Engine

variable {e e' : Engine} {id k : ScopeId} {key : Nat} {slot name : String}

/-! ### Names that stay -/

/-- The names in places stay. -/
def KeepsPlaces (e e' : Engine) : Prop :=
  ∀ cell name, e.names cell = some name → e'.names cell = some name

instance : IsPreorder Engine KeepsPlaces where
  refl _ _ _ h := h
  trans _ _ _ h h' cell name := h' cell name ∘ h cell name

/-- The names in places are those of the engine. -/
theorem names_of_cells (h : e'.cells = e.cells) : e'.names = e.names := by
  unfold Engine.names
  rw [h]

/-- A change of a scope leaves the places of names alone. -/
theorem names_modifyScope (f : Scope → Scope) : (e.modifyScope id f).names = e.names :=
  names_of_cells (congrArg (·.cells) (Touched.modifyScope f))

/-- No place is changed. -/
theorem KeepsPlaces.of_cells (h : e'.cells = e.cells) : KeepsPlaces e e' := fun _ _ hname =>
  (congrFun (names_of_cells h) _).trans hname

/-- Where a name comes from, only names of scopes are changed. -/
theorem foundName_renamed (limit : Nat) (s : Scope) (slot : String) (e : Engine) :
    Rescoped (fun _ => Scope.Renamed True) e (foundName limit s slot e).2 := by
  cases ho : s.owner with
  | none => exact foundName_none ho e
  | some o =>
    rw [foundName_some ho]
    exact (nameForWithin_renamed limit o slot e).mono fun _ _ _ _ hR => hR.mono fun _ => trivial

/-- A scope that gets a name for the slot while it is found or made elsewhere gets the same one. -/
theorem foundName_answered {limit : Nat} {s : Scope}
    (h : foundName limit s slot e = (.ok name, e')) :
    Rescoped (fun _ => Scope.Answered slot name) e e' := by
  cases ho : s.owner with
  | none =>
    have hsame : Rescoped (fun _ => Scope.Answered slot name) e (foundName limit s slot e).2 :=
      foundName_none ho e
    rwa [h] at hsame
  | some o =>
    rw [foundName_some ho] at h
    exact nameForWithin_answered h

/-- So a scope that had no name has none, or that one. -/
theorem foundName_new {limit : Nat} {s t : Scope} {other : String} (hs : e.scope? id = some s)
    (hname : s.nameOf? slot = none) (h : foundName limit s slot e = (.ok name, e'))
    (ht : e'.scope? id = some t) (hother : t.nameOf? slot = some other) : other = name := by
  obtain ⟨t', ht', hsame | hnew⟩ := (foundName_answered h).scope hs <;> cases ht.symm.trans ht'
  · rw [hsame, hname] at hother
    cases hother
  · exact Option.some.inj (hother.symm.trans hnew)

/-- **Finding or making a name takes none away.** -/
theorem nameForWithin_keepsNames (limit : Nat) (id : ScopeId) (slot : String) (e : Engine) :
    Rescoped (fun _ => Scope.KeepsNames) e (nameForWithin limit id slot e).2 :=
  nameForWithin_each (R := Rescoped fun _ => Scope.KeepsNames)
    (fun howner => foundName_steps (fun o _ => howner o) fun _ => Rescoped.generateName _ _ _)
    (fun hs hname hrun hfound => hfound.trans (.modifyScope fun _ hs₁ =>
      Scope.keepsNames_insert fun _ => foundName_new hs hname hrun hs₁)) limit id e

/-- The places of names are as they were. -/
abbrev SameCells (e e' : Engine) : Prop := e'.cells = e.cells

instance : IsPreorder Engine SameCells where
  refl _ := rfl
  trans _ _ _ h h' := h'.trans h

theorem generateName_cells (scope slot : String) (e : Engine) :
    SameCells e (generateName scope slot e).2 := congrArg (·.cells) (Touched.reportAll _)

/-- Finding or making a name fills no place. -/
theorem nameForWithin_cells (limit : Nat) (id : ScopeId) (slot : String) (e : Engine) :
    (nameForWithin limit id slot e).2.cells = e.cells :=
  nameForWithin_steps (R := SameCells) generateName_cells
    (fun _ _ _ => congrArg (·.cells) (Touched.modifyScope _)) limit id e

/-! ### One rule -/

/-- A place that is filled has the name, and no scope is changed. -/
theorem placeName_ok {cell : Option Nat} (h : placeName cell name slot e = (.ok (), e')) :
    cell.bind e'.names = some name ∧ e'.scopes = e.scopes := by
  cases cell with
  | none => cases h
  | some cell =>
    unfold placeName fillCell at h
    cases hget : e.cells.get? cell with
    | some other =>
      simp only [hget] at h
      cases h
    | none =>
      simp only [hget] at h
      cases h
      exact ⟨Dict.get?_insert_self _ _ _, rfl⟩

/-- A place that has a name keeps it. -/
theorem placeName_keepsPlaces (cell : Option Nat) (name slot : String) (e : Engine) :
    KeepsPlaces e (placeName cell name slot e).2 := by
  cases cell with
  | none => exact refl_of KeepsPlaces e
  | some cell =>
    show KeepsPlaces e (fillCell cell name slot e).2
    unfold fillCell
    cases hget : e.cells.get? cell with
    | some other => exact refl_of KeepsPlaces e
    | none =>
      intro other name' hname
      have hne : other ≠ cell := fun heq => by
        rw [heq] at hname
        cases hname.symm.trans hget
      exact (Dict.get?_insert_of_ne hne _ _).trans hname

/-- No other slot of the scope gets another name, and a name is replaced only by one that is
    spelled. -/
theorem ruleName_keepsNames (explicitName : Option String) (other : String)
    (h : explicitName.isSome → other ≠ slot) :
    Rescoped (fun _ s s' => ∀ name, s.nameOf? other = some name → s'.nameOf? other = some name) e
      (ruleName id slot explicitName e).2 := by
  have hpre : ∀ _ : ScopeId, IsPreorder Scope fun s s' : Scope =>
      ∀ name, s.nameOf? other = some name → s'.nameOf? other = some name := fun _ =>
    { refl := fun _ _ h => h, trans := fun _ _ _ h h' name => h' name ∘ h name }
  cases explicitName with
  | none =>
    exact (nameForWithin_keepsNames e.walkLimit id slot e).mono fun _ _ _ _ hk => hk other
  | some name =>
    refine .modifyScope fun s _ name' hname => ?_
    rw [Scope.nameOf?_insert, if_neg (h rfl)]
    exact hname

/-- Finding the name of a rule fills no place. -/
theorem ruleName_cells (id : ScopeId) (slot : String) (explicitName : Option String) (e : Engine) :
    (ruleName id slot explicitName e).2.cells = e.cells := by
  cases explicitName with
  | none => exact nameForWithin_cells e.walkLimit id slot e
  | some name => exact congrArg (·.cells) (Touched.modifyScope _)

/-- **What the step for a rule of a named kind with a slot has done:** the rule and its slot have
    the same name, and only the slot may have had another one, if the rule spells its own. -/
structure NamesRule (id : ScopeId) (s : Scope) (rule : Rule) (slot name : String) (e e' : Engine)
    (s' : Scope) : Prop where
  scope : e'.scope? id = some s'
  rules : s'.rules = s.rules
  given : rule.name? e'.names = some name
  spelled {other : String} : rule.explicitName = some other → name = other
  kept : s'.nameOf? slot = some name
  places : KeepsPlaces e e'
  keeps {other name' : String} : (rule.explicitName.isSome → other ≠ slot) →
    s.nameOf? other = some name' → s'.nameOf? other = some name'

/-- **What naming a rule does,** if the rule gets a name. -/
theorem assignName_namesRule {s : Scope} {rule : Rule} (hs : e.scope? id = some s)
    (hr : s.rules[key]? = some rule) (hslot : rule.slot = some slot)
    (hkind : rule.kind.isNamed = true) (hrun : assignName id key e = (.ok (), e')) :
    ∃ name s', NamesRule id s rule slot name e e' s' := by
  have hrenamed := assignName_renamed id key e
  rw [hrun] at hrenamed
  rw [assignName_slotted (rule?_eq_some_iff.mpr ⟨s, hs, hr⟩) hslot hkind] at hrun
  -- The rule gets a name first, and its place is filled then.
  rcases hgot : ruleName id slot rule.explicitName e with ⟨err | name, e₁⟩
  · rw [stateful_bind_error hgot] at hrun
    cases hrun
  rw [stateful_bind_ok hgot] at hrun
  obtain ⟨hplace, hscopes⟩ := placeName_ok hrun
  have hcells := ruleName_cells id slot rule.explicitName e
  have hplaces := placeName_keepsPlaces rule.cell name slot e₁
  rw [hgot] at hcells
  rw [hrun] at hplaces
  obtain ⟨hspells, s', hs', hname⟩ := ruleName_ok hs hgot
  have hlook : e'.scope? id = some s' := by
    unfold scope? at hs' ⊢
    rwa [hscopes]
  refine ⟨name, s', hlook, ?_, hplace, hspells _, hname,
    trans_of KeepsPlaces (.of_cells hcells) hplaces, fun {other name'} hspelled hold => ?_⟩
  · obtain ⟨t, ht, hR⟩ := hrenamed.scope hs
    cases hlook.symm.trans ht
    exact hR.rules
  · have hkeeps : Rescoped (fun _ t t' => ∀ name, t.nameOf? other = some name →
        t'.nameOf? other = some name) e (ruleName id slot rule.explicitName e).2 :=
      ruleName_keepsNames rule.explicitName other hspelled
    rw [hgot] at hkeeps
    obtain ⟨t, ht, hsame⟩ := hkeeps.scope hs
    cases hs'.symm.trans ht
    exact hsame _ hold

/-- **After its step a rule has its name,** as have those before it. -/
theorem assignName_labelledTo {s : Scope} (hs : e.scope? id = some s)
    (hrun : assignName id key e = (.ok (), e')) (h : s.LabelledTo key e.names) :
    ∃ s', e'.scope? id = some s' ∧ s'.rules = s.rules ∧ s'.LabelledTo (key + 1) e'.names := by
  cases hr : s.rules[key]? with
  | none =>
    have hmissing : e.rule? id key = none := by
      unfold Engine.rule?
      rw [hs]
      exact hr
    rw [assignName_missing hmissing] at hrun
    cases hrun
  | some rule =>
    -- The induction has the rules before this one named. This one is named now, if it gets a name
    -- at all.
    by_cases hnamed : ∃ slot, rule.slot = some slot ∧ rule.kind.isNamed = true
    · obtain ⟨slot, hslot, hkind⟩ := hnamed
      obtain ⟨name, s', hstep⟩ := assignName_namesRule hs hr hslot hkind hrun
      refine ⟨s', hstep.scope, hstep.rules, fun key' rule' slot' hlt hr' hslot' hkind' => ?_⟩
      rw [hstep.rules] at hr'
      rcases Nat.lt_succ_iff_lt_or_eq.mp hlt with hbefore | rfl
      · -- A rule that had its name already: its slot keeps it, unless this rule spells another one.
        obtain ⟨name', hname', hspells, hlast⟩ := h key' rule' slot' hbefore hr' hslot' hkind'
        refine ⟨name', ?_, hspells, fun hnone => hstep.keeps (fun hspelled heq => ?_) (hlast ?_)⟩
        · obtain ⟨cell, hc, hcell⟩ := Option.bind_eq_some_iff.mp hname'
          exact Option.bind_eq_some_iff.mpr ⟨cell, hc, hstep.places _ _ hcell⟩
        · exact hnone key (Nat.lt_succ_self _) hbefore rule (hstep.rules ▸ hr)
            ⟨heq ▸ hslot, hkind, hspelled⟩
        · exact fun later hlater hbehind r hrl =>
            hnone later (by omega) hbehind r (hstep.rules ▸ hrl)
      · cases hr.symm.trans hr'
        cases hslot.symm.trans hslot'
        exact ⟨name, hstep.given, fun _ => hstep.spelled, fun _ => hstep.kept⟩
    · -- A rule that gets no name.
      have hidle : rule.slot = none ∨ rule.kind.isNamed = false := by
        cases hslot : rule.slot with
        | none => exact .inl rfl
        | some slot => exact .inr (Bool.eq_false_iff.mpr fun hk => hnamed ⟨slot, hslot, hk⟩)
      rw [assignName_idle (rule?_eq_some_iff.mpr ⟨s, hs, hr⟩) hidle] at hrun
      cases hrun
      refine ⟨s, hs, rfl, fun key' rule' slot' hlt hr' hslot' hkind' => ?_⟩
      rcases Nat.lt_succ_iff_lt_or_eq.mp hlt with hbefore | rfl
      · obtain ⟨name', hname', hspells, hlast⟩ := h key' rule' slot' hbefore hr' hslot' hkind'
        exact ⟨name', hname', hspells, fun hnone => hlast fun later hlater =>
          hnone later (by omega)⟩
      · cases hr.symm.trans hr'
        exact absurd ⟨slot', hslot', hkind'⟩ hnamed

/-! ### All rules -/

/-- The steps for the rules from some key on, while those before have names. -/
theorem forEach_assignName_labelledTo (count : Nat) {first : Nat} {s : Scope}
    (hs : e.scope? id = some s) (h : s.LabelledTo first e.names)
    (hrun : forEach (assignName id) (List.range' first count) e = (.ok (), e')) :
    ∃ s', e'.scope? id = some s' ∧ s'.rules = s.rules ∧ s'.LabelledTo (first + count) e'.names := by
  induction count generalizing first e s with
  | zero =>
    cases hrun
    exact ⟨s, hs, rfl, h⟩
  | succ count ih =>
    rw [List.range'_succ, forEach_cons] at hrun
    rcases hstep : assignName id first e with ⟨err | ⟨⟩, e₁⟩
    · rw [stateful_bind_error hstep] at hrun
      cases hrun
    rw [stateful_bind_ok hstep] at hrun
    obtain ⟨s₁, hs₁, hrules₁, h₁⟩ := assignName_labelledTo hs hstep h
    obtain ⟨s', hs', hrules, h'⟩ := ih hs₁ h₁ hrun
    rw [Nat.add_assoc, Nat.add_comm 1 count] at h'
    exact ⟨s', hs', hrules.trans hrules₁, h'⟩

/-- **After the steps for all rules of a scope they have names,** and so have their slots. -/
theorem forEach_assignName_labelled {s : Scope} (hs : e.scope? id = some s) (hl : s.Listed)
    (hrun : forEach (assignName id) s.order e = (.ok (), e')) :
    ∃ s', e'.scope? id = some s' ∧ s'.Labelled e'.names := by
  rw [hl, Scope.keys, List.range_eq_range'] at hrun
  obtain ⟨s', hs', hrules, h⟩ := forEach_assignName_labelledTo s.rules.length hs
    (fun _ _ _ hlt => absurd hlt (Nat.not_lt_zero _)) hrun
  refine ⟨s', hs', ?_⟩
  unfold Scope.Labelled
  rwa [hrules, ← Nat.zero_add s.rules.length]

end Engine

end StyleBook
