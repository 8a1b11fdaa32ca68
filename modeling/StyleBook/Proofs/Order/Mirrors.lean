import StyleBook.Proofs.Order.Echoes

namespace StyleBook

/-!
# Processing in two engines

Two scopes with alike rules are processed in alike steps, if what their rules inherit corresponds,
and the scopes that names are looked up in. What the rules are called then is the same, and what is
merged is alike again.

* `Scope.Mirrors` — scopes that correspond in all that processing looks at;
* `Engine.Tallies` — so do the scopes of two engines that are related;
* `Engine.Tallies.nameForWithin`, `Engine.Tallies.mergeAt` — names are the same, and merged
  stylesets are alike;
* `Engine.Tallies.processWithin` — processing keeps it so.
-/

variable {L M : Likeness}

/-- **Scopes that correspond** in their rules and names, and in the scopes around them. -/
structure Scope.Mirrors (L M : Likeness) (s t : Scope) : Prop extends Echoes L M s t where
  name : s.name = t.name
  names : s.names = t.names
  base : Option.Rel M.scopes s.base t.base

namespace Scope.Mirrors

variable {s t : Scope}

theorem nameOf? (h : s.Mirrors L M t) (slot : String) : s.nameOf? slot = t.nameOf? slot := by
  unfold Scope.nameOf?
  rw [h.names]

/-- A name is given. -/
theorem insertName (h : s.Mirrors L M t) (slot name : String) :
    Mirrors L M { s with names := s.names.insert slot name }
      { t with names := t.names.insert slot name } where
  named := h.named
  order := h.order
  rules := h.rules
  owner := h.owner
  children := h.children
  name := h.name
  names := by rw [h.names]
  base := h.base

/-- Scopes that correspond are about rules that do. -/
theorem reflects : Reflects L M (Scope.Mirrors L M) where
  rules h := h.rules
  setRule h key _ _ hr := ⟨echoes_reflects.setRule h.toEchoes key hr, h.name, h.names, h.base⟩

end Scope.Mirrors

namespace Engine

variable {e e' f f' : Engine} {k j : ScopeId} {slot name name' : String} {key : Nat}

/-! ### No numbers -/

/-- No number is taken, and names are readable. -/
structure Steady (e e' : Engine) : Prop where
  mode : e.naming.mode = .readable
  nextId : e'.naming.nextId = e.naming.nextId

namespace Steady

variable {e'' : Engine}

/-- No number is taken on the way. -/
theorem first (h : Steady e e'') (h₁ : Ages e e') (h₂ : Ages e' e'') : Steady e e' :=
  ⟨h.mode, le_antisymm (h₂.nextId.trans h.nextId.le) h₁.nextId⟩

theorem second (h : Steady e e'') (h₁ : Ages e e') (h₂ : Ages e' e'') : Steady e' e'' :=
  ⟨h₁.mode.trans h.mode, h.nextId.trans (h.first h₁ h₂).nextId.symm⟩

/-- A name that takes no number is plain. -/
theorem generateName {scope : String} (h : Steady e (generateName scope slot e).2) :
    (Engine.generateName scope slot e).1 = .ok (scope ++ "_" ++ slot) := by
  have hnaming : (Engine.generateName scope slot e).2.naming =
    (e.naming.generate scope slot).naming :=
    (Touched.reportAll _).naming
  rcases Naming.generate_readable h.mode scope slot with ⟨hname, -⟩ | ⟨hlt, -⟩
  · exact congrArg Except.ok hname
  · have hid := h.nextId
    rw [hnaming] at hid
    omega

end Steady

/-! ### Two engines -/

/-- **The scopes that are related correspond,** and so do the names in the places that are. -/
structure Tallies (L M : Likeness) (e f : Engine) : Prop
    extends Related (Scope.Mirrors L M) M e f where
  cell {a b : Nat} : M.cells a b → e.cells.get? a = f.cells.get? b

/-- The name of a slot of a scope that is not nested is inherited or new. -/
theorem foundName_unowned {limit : Nat} {s : Scope} (ho : s.owner = none)
    (h : foundName limit s slot e = (.ok name, e')) :
    ∃ found, e.inheritedWithin slot e.walkLimit s.base = .ok found ∧
      (found = some name ∧ e' = e ∨ found = none ∧ generateName s.name slot e = (.ok name, e')) :=
      by
  unfold foundName at h
  rw [ho] at h
  -- A name that was found leaves the engine as it was; only a new one changes it.
  simp only [stateful_bind, stateful_get] at h
  cases hfound : e.inheritedWithin slot e.walkLimit s.base with
  | error err =>
    rw [hfound] at h
    cases h
  | ok found =>
    rw [hfound] at h
    refine ⟨found, rfl, ?_⟩
    cases found with
    | some other =>
      cases h
      exact .inl ⟨rfl, rfl⟩
    | none => exact .inr ⟨rfl, h⟩

namespace Tallies

/-- Nothing about scopes and places is changed. -/
theorem aside (h : Tallies L M e f) (hscopes : e'.scopes = e.scopes) (hcells : e'.cells = e.cells)
    (hscopes' : f'.scopes = f.scopes) (hcells' : f'.cells = f.cells) : Tallies L M e' f' where
  toRelated := h.toRelated.aside hscopes hscopes'
  cell hab := by rw [hcells, hcells', h.cell hab]

/-- Related scopes are changed alike. -/
theorem modifyScope (h : Tallies L M e f) (hM : M.Exact) (hkj : M.scopes k j) {g g' : Scope → Scope}
    (hg : ∀ {s t}, s.Mirrors L M t → (g s).Mirrors L M (g' t)) :
    Tallies L M (e.modifyScope k g) (f.modifyScope j g') where
  toRelated := h.toRelated.modifyScope hM hkj hg
  cell hab := by
    rw [(Touched.modifyScope g).cells, (Touched.modifyScope g').cells]
    exact h.cell hab

/-! ### Names -/

/-- **The same names are inherited.** -/
theorem inheritedWithin (h : Tallies L M e f) (slot : String) {limit limit' : Nat}
    {base base' : Option ScopeId} (hbase : Option.Rel M.scopes base base')
    {found found' : Option String} (hrun : e.inheritedWithin slot limit base = .ok found)
    (hrun' : f.inheritedWithin slot limit' base' = .ok found') : found = found' := by
  -- The limits may differ, for neither walk ended at its limit.
  induction limit generalizing limit' base base' with
  | zero =>
    cases hbase with
    | none =>
      unfold Engine.inheritedWithin at hrun hrun'
      cases hrun.symm.trans hrun'
      rfl
    | some hb => cases hrun
  | succ limit ih =>
    cases hbase with
    | none =>
      unfold Engine.inheritedWithin at hrun hrun'
      cases hrun.symm.trans hrun'
      rfl
    | some hb =>
      cases limit' with
      | zero => cases hrun'
      | succ limit' =>
        obtain ⟨s, t, hs, ht, hst⟩ := h.scope hb
        simp only [Engine.inheritedWithin, hs, ht, ← hst.nameOf? slot] at hrun hrun'
        cases hslot : s.nameOf? slot with
        | some name =>
          simp only [hslot] at hrun hrun'
          cases hrun.symm.trans hrun'
          rfl
        | none =>
          simp only [hslot] at hrun hrun'
          exact ih hst.base hrun hrun'

/-- A new name for a slot of scopes that are called the same. -/
theorem generateName {scope scope' : String} (h : Tallies L M e f) (hscope : scope = scope')
    (hrun : Engine.generateName scope slot e = (.ok name, e'))
    (hrun' : Engine.generateName scope' slot f = (.ok name', f')) (hsteady : Steady e e')
    (hsteady' : Steady f f') : name = name' ∧ Tallies L M e' f' := by
  subst hscope
  have hstate : e' = (Engine.generateName scope slot e).2 := by rw [hrun]
  have hstate' : f' = (Engine.generateName scope slot f).2 := by rw [hrun']
  have hname := Steady.generateName (hstate ▸ hsteady)
  have hname' := Steady.generateName (hstate' ▸ hsteady')
  rw [hrun] at hname
  rw [hrun'] at hname'
  cases hname.trans hname'.symm
  refine ⟨rfl, ?_⟩
  rw [hstate, hstate']
  exact h.aside (scopes_reportAll _) (Touched.reportAll _).cells (scopes_reportAll _)
    (Touched.reportAll _).cells

/-- **Slots get the same names,** if no number is taken. -/
theorem nameForWithin (hM : M.Exact) {limit limit' : Nat} (h : Tallies L M e f) (hkj : M.scopes k j)
    (hrun : nameForWithin limit k slot e = (.ok name, e'))
    (hrun' : Engine.nameForWithin limit' j slot f = (.ok name', f')) (hsteady : Steady e e')
    (hsteady' : Steady f f') : name = name' ∧ Tallies L M e' f' := by
  -- Both runs gave a name, so they took the same way: known, from the owner, inherited or new.
  induction limit generalizing limit' k j name name' e' f' with
  | zero => cases hrun
  | succ limit ih =>
    obtain ⟨s, t, hs, ht, hst⟩ := h.scope hkj
    obtain ⟨s', hs', hcases⟩ := nameForWithin_ok hrun
    obtain ⟨t', ht', hcases'⟩ := nameForWithin_ok hrun'
    cases hs.symm.trans hs'
    cases ht.symm.trans ht'
    rw [← hst.nameOf? slot] at hcases'
    rcases hcases with ⟨hname, rfl⟩ | ⟨hnone, rest, e₁, hlimit, hfound, rfl⟩
    · rcases hcases' with ⟨hname', rfl⟩ | ⟨hnone', -⟩
      · cases hname.symm.trans hname'
        exact ⟨rfl, h⟩
      · cases hname.symm.trans hnone'
    -- The slot has no name yet in either scope.
    · rcases hcases' with ⟨hname', -⟩ | ⟨-, rest', f₁, -, hfound', rfl⟩
      · cases hname'.symm.trans hnone
      -- The name goes to the scope at the end; before that the numbers stand still too.
      · obtain rfl : limit = rest := by omega
        have hsteady₁ : Steady e e₁ :=
          ⟨hsteady.mode, by rw [← hsteady.nextId, (Touched.modifyScope _).naming]⟩
        have hsteady₁' : Steady f f₁ :=
          ⟨hsteady'.mode, by rw [← hsteady'.nextId, (Touched.modifyScope _).naming]⟩
        suffices hfound₁ : name = name' ∧ Tallies L M e₁ f₁ by
          obtain ⟨rfl, h₁⟩ := hfound₁
          exact ⟨rfl, h₁.modifyScope hM hkj fun hst => hst.insertName slot name⟩
        have howner := hst.owner
        cases ho : s.owner with
        | some o =>
          rw [ho] at howner
          generalize ho' : t.owner = owner' at howner
          cases howner with
          | some howner =>
            rw [foundName_some ho] at hfound
            rw [foundName_some ho'] at hfound'
            exact ih howner hfound hfound' hsteady₁ hsteady₁'
        | none =>
          -- A scope that is not nested: what is inherited agrees, and a new name does if numbers
          -- and modes do.
          rw [ho] at howner
          generalize ho' : t.owner = owner' at howner
          cases howner
          obtain ⟨found, hinherited, hcases⟩ := foundName_unowned ho hfound
          obtain ⟨found', hinherited', hcases'⟩ := foundName_unowned ho' hfound'
          cases h.inheritedWithin slot hst.base hinherited hinherited'
          rcases hcases with ⟨rfl, rfl⟩ | ⟨rfl, hnew⟩
          · rcases hcases' with ⟨heq, rfl⟩ | ⟨heq, -⟩ <;> cases heq
            exact ⟨rfl, h⟩
          · rcases hcases' with ⟨heq, -⟩ | ⟨-, hnew'⟩
            · cases heq
            · exact h.generateName hst.name hnew hnew' hsteady₁ hsteady₁'

/-- A name is put into corresponding places. -/
theorem placeName (hM : M.Exact) (h : Tallies L M e f) {cell cell' : Option Nat}
    (hcell : Option.Rel M.cells cell cell') (hrun : placeName cell name slot e = (.ok (), e'))
    (hrun' : Engine.placeName cell' name slot f = (.ok (), f')) : Tallies L M e' f' := by
  cases hcell with
  | none => cases hrun
  | @some a b hab =>
    unfold Engine.placeName fillCell at hrun hrun'
    cases ha : e.cells.get? a with
    | some _ =>
      simp only [ha] at hrun
      cases hrun
    | none =>
      have hb := (h.cell hab).symm.trans ha
      simp only [ha] at hrun
      simp only [hb] at hrun'
      cases hrun
      cases hrun'
      refine ⟨h.toRelated.aside rfl rfl, fun {a' b'} hab' => ?_⟩
      show Dict.get? a' (e.cells.insert a name) = Dict.get? b' (f.cells.insert b name)
      -- Cells that correspond are the same cell in both engines or in neither.
      rw [Dict.get?_insert, Dict.get?_insert, h.cell hab']
      have hiff : a' = a ↔ b' = b :=
        ⟨fun heq => hM.cells.2 (heq ▸ hab') hab, fun heq => hM.cells.1 (heq ▸ hab') hab⟩
      simp only [hiff]

/-- Names that corresponding rules spell, or those of their slots. -/
theorem ruleName (hM : M.Exact) (h : Tallies L M e f) (hkj : M.scopes k j)
    {explicit : Option String}
    (hrun : ruleName k slot explicit e = (.ok name, e'))
    (hrun' : Engine.ruleName j slot explicit f = (.ok name', f')) (hsteady : Steady e e')
    (hsteady' : Steady f f') : name = name' ∧ Tallies L M e' f' := by
  cases explicit with
  | some spelled =>
    cases hrun
    cases hrun'
    exact ⟨rfl, h.modifyScope hM hkj fun hst => hst.insertName slot name⟩
  | none => exact h.nameForWithin hM hkj hrun hrun' hsteady hsteady'

/-- **Corresponding rules get the same names.** -/
theorem assignName (hM : M.Exact) (h : Tallies L M e f) (hkj : M.scopes k j) (key : Nat)
    (hrun : assignName k key e = (.ok (), e')) (hrun' : Engine.assignName j key f = (.ok (), f'))
    (hsteady : Steady e e') (hsteady' : Steady f f') : Tallies L M e' f' := by
  have hrule := h.rule? Scope.Mirrors.reflects hkj key
  cases hr : e.rule? k key with
  | none =>
    rw [assignName_missing hr] at hrun
    cases hrun
  | some r =>
    rw [hr] at hrule
    generalize hr' : f.rule? j key = rule' at hrule
    cases hrule with
    | @some _ r' hrule =>
      have hkind' : r.kind = r'.kind := hrule.alike.content.kind
      -- Only rules with a slot and of a kind that has names get one.
      by_cases hnamed : ∃ slot, r.slot = some slot ∧ r.kind.isNamed = true
      · obtain ⟨slot, hslot, hkind⟩ := hnamed
        rw [assignName_slotted hr hslot hkind] at hrun
        rw [assignName_slotted hr' (hrule.alike.slot ▸ hslot) (hkind' ▸ hkind),
          ← hrule.alike.explicitName] at hrun'
        obtain ⟨name, e₁, hname, hplace⟩ := stateful_bind_eq_ok hrun
        obtain ⟨name', f₁, hname', hplace'⟩ := stateful_bind_eq_ok hrun'
        -- No number is taken on the way, so none is taken in any step of it.
        have hages := Ages.ruleName k slot r.explicitName e
        have hages' := Ages.ruleName j slot r.explicitName f
        have hages₁ := Ages.placeName r.cell name slot e₁
        have hages₁' := Ages.placeName r'.cell name' slot f₁
        unfold Steps at hages hages' hages₁ hages₁'
        rw [hname] at hages
        rw [hname'] at hages'
        rw [hplace] at hages₁
        rw [hplace'] at hages₁'
        obtain ⟨rfl, h₁⟩ := h.ruleName hM hkj hname hname' (hsteady.first hages hages₁)
          (hsteady'.first hages' hages₁')
        exact h₁.placeName hM hrule.cell hplace hplace'
      · have hidle : r.slot = none ∨ r.kind.isNamed = false := by
          cases hslot : r.slot with
          | none => exact .inl rfl
          | some slot => exact .inr (Bool.eq_false_iff.mpr fun hkind => hnamed ⟨slot, hslot, hkind⟩)
        rw [assignName_idle hr hidle] at hrun
        rw [assignName_idle hr' (hrule.alike.slot ▸ hkind' ▸ hidle)] at hrun'
        cases hrun
        cases hrun'
        exact h

/-! ### Merging -/

theorem report (h : Tallies L M e f) (event event' : Event) :
    Tallies L M (e.report event) (f.report event') := h.aside rfl rfl rfl rfl

/-- **Merging keeps it so:** what is merged is alike, and no name is given. -/
theorem mergeAt (hM : M.Exact) (h : Tallies L M e f) (hkj : M.scopes k j) (key : Nat) :
    Tallies L M (mergeAt k key e).2 (Engine.mergeAt j key f).2 where
  toRelated := h.toRelated.mergeAt Scope.Mirrors.reflects hM hkj key
  cell hab := by
    rw [(mergeAt_touched k key e).cells, (mergeAt_touched j key f).cells]
    exact h.cell hab

end Tallies

/-! ### Processing -/

/-- **Two computations that take related engines to related ones,** if both succeed and no number is
    taken. -/
structure Together (L M : Likeness) (c c' : EngineM Unit) : Prop where
  ages (e : Engine) : Steps Ages c e
  ages' (e : Engine) : Steps Ages c' e
  tallies {e e' f f' : Engine} : Tallies L M e f → c e = (.ok (), e') → c' f = (.ok (), f') →
    Steady e e' → Steady f f' → Tallies L M e' f'

namespace Together

/-- A change of both engines. -/
theorem modify {g g' : Engine → Engine} (hg : ∀ e, Ages e (g e)) (hg' : ∀ e, Ages e (g' e))
    (h : ∀ {e f}, Tallies L M e f → Tallies L M (g e) (g' f)) :
    Together L M (MonadState.modifyGet fun e => ((), g e))
    (MonadState.modifyGet fun e => ((), g' e)) where
  ages e := .modify (hg e)
  ages' e := .modify (hg' e)
  tallies hef hrun hrun' _ _ := by
    cases hrun
    cases hrun'
    exact h hef

/-- One computation after the other. -/
theorem bind {c c' d d' : EngineM Unit} (h : Together L M c c') (h' : Together L M d d') :
    Together L M (c >>= fun _ => d) (c' >>= fun _ => d') where
  ages e := .bind (h.ages e) fun _ e₁ _ => h'.ages e₁
  ages' e := .bind (h.ages' e) fun _ e₁ _ => h'.ages' e₁
  tallies {e e' f f'} hef hrun hrun' hsteady hsteady' := by
    obtain ⟨⟨⟩, e₁, hfirst, hrest⟩ := stateful_bind_eq_ok hrun
    obtain ⟨⟨⟩, f₁, hfirst', hrest'⟩ := stateful_bind_eq_ok hrun'
    have h₁ : Ages e e₁ := by simpa only [Steps, hfirst] using h.ages e
    have h₂ : Ages e₁ e' := by simpa only [Steps, hrest] using h'.ages e₁
    have h₁' : Ages f f₁ := by simpa only [Steps, hfirst'] using h.ages' f
    have h₂' : Ages f₁ f' := by simpa only [Steps, hrest'] using h'.ages' f₁
    exact h'.tallies (h.tallies hef hfirst hfirst' (hsteady.first h₁ h₂) (hsteady'.first h₁' h₂'))
      hrest hrest' (hsteady.second h₁ h₂) (hsteady'.second h₁' h₂')

/-- Computations for the members of lists, one after the other. -/
theorem forEach {α β : Type} {R : α → β → Prop} {step : α → EngineM Unit} {step' : β → EngineM Unit}
    (h : ∀ {a b}, R a b → Together L M (step a) (step' b)) {as : List α} {bs : List β}
    (hlist : List.Forall₂ R as bs) :
    Together L M (Engine.forEach step as) (Engine.forEach step' bs) := by
  induction hlist with
  | nil => exact .modify (fun e => refl_of Ages e) (fun e => refl_of Ages e) id
  | cons hab _ ih => exact (h hab).bind ih

/-- Names of corresponding rules, and what is merged of them. -/
theorem processRules (hM : M.Exact) (hkj : M.scopes k j) (keys : List Nat) :
    Together L M (processRules k keys) (Engine.processRules j keys) := by
  have hnames (key : Nat) : Together L M (assignName k key) (assignName j key) :=
    ⟨.assignName k key, .assignName j key, fun h => h.assignName hM hkj key⟩
  have hmerge (key : Nat) : Together L M (mergeAt k key) (mergeAt j key) :=
    ⟨.mergeAt k key, .mergeAt j key, fun h hrun hrun' _ _ => by
      simpa only [hrun, hrun'] using h.mergeAt hM hkj key⟩
  have hkeys : List.Forall₂ Eq keys keys := List.forall₂_same.mpr fun _ _ => rfl
  refine (forEach (fun heq => heq ▸ hnames _) hkeys).bind <|
    (forEach (fun heq => heq ▸ hmerge _) hkeys).bind <| modify (.modifyScope k _) (.modifyScope j _)
      fun h => h.modifyScope hM hkj fun hst =>
        ⟨⟨hst.named, hst.order, hst.rules, hst.owner, hst.children⟩, hst.name, hst.names,
          hst.base⟩

/-- **Processing keeps scopes corresponding.** -/
theorem processWithin (hM : M.Exact) (limit limit' : Nat) (hkj : M.scopes k j) :
    Together L M (processWithin limit k) (Engine.processWithin limit' j) := by
  -- On the limit of the first run; the second one only has to end as well.
  induction limit generalizing limit' k j with
  | zero => exact ⟨.processWithin 0 k, .processWithin limit' j, fun _ hrun => nomatch hrun⟩
  | succ limit ih =>
    refine ⟨.processWithin _ k, .processWithin limit' j, fun {e e' f f'} h hrun hrun' => ?_⟩
    cases limit' with
    | zero => cases hrun'
    | succ limit' =>
      obtain ⟨s, t, hs, ht, hst⟩ := h.scope hkj
      rw [processWithin_succ, stateful_bind_ok (requireScope_some hs)] at hrun
      rw [processWithin_succ, stateful_bind_ok (requireScope_some ht)] at hrun'
      -- The state is set and the event reported after the rules and the nested scopes.
      have hstate := modify (L := L) (M := M)
        (.modifyScope k fun s => { s with state := .processed })
        (.modifyScope j fun s => { s with state := .processed }) fun h =>
        h.modifyScope hM hkj fun hst =>
          ⟨⟨hst.named, hst.order, hst.rules, hst.owner, hst.children⟩, hst.name, hst.names,
            hst.base⟩
      have hreport := modify (L := L) (M := M)
        (.report (.scopeProcessed s.name s.order.length s.owner.isSome))
        (.report (.scopeProcessed t.name t.order.length t.owner.isSome)) fun h => h.report _ _
      rw [← hst.order] at hrun' hreport
      exact ((processRules hM hkj s.order).bind <|
        (forEach (fun hcc' => ih limit' hcc') hst.children).bind <|
        hstate.bind hreport).tallies h hrun hrun'

end Together

end Engine

end StyleBook
