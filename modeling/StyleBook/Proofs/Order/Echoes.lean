import StyleBook.Proofs.Order.Ages
import StyleBook.Proofs.Rule.Contributions
import StyleBook.Proofs.Script.Uniform

namespace StyleBook

/-!
# Merging in two engines

Two scopes with alike rules are processed. If what their rules inherit corresponds, then what is
merged of them is alike, whatever the scopes are called and whatever names they get.

* `Rule.Mirrors` — rules that correspond in all that merging looks at;
* `Scope.Echoes` — scopes with such rules, which are nested in corresponding ones;
* `Engine.Related` — the scopes of two engines that are related;
* `Engine.Related.mergeWithin` — what is merged of related rules is alike;
* `Engine.InStep.processWithin` — processing keeps scopes echoing each other.
-/

variable {L M : Likeness}

/-- Related lists have related members at the same places. -/
theorem forall₂_getElem? {α β : Type} {R : α → β → Prop} {as : List α} {bs : List β}
    (h : List.Forall₂ R as bs) (n : Nat) : Option.Rel R as[n]? bs[n]? := by
  induction h generalizing n with
  | nil => exact .none
  | cons hab _ ih =>
    cases n with
    | zero => exact .some hab
    | succ n => exact ih n

/-- Related members are replaced by related ones. -/
theorem forall₂_set {α β : Type} {R : α → β → Prop} {as : List α} {bs : List β}
    (h : List.Forall₂ R as bs) (n : Nat) {a : α} {b : β} (hab : R a b) :
    List.Forall₂ R (as.set n a) (bs.set n b) := by
  induction h generalizing n with
  | nil => exact .nil
  | cons hhead htail ih =>
    cases n with
    | zero => exact .cons hab htail
    | succ n => exact .cons hhead (ih n)

theorem rel_some {α β : Type} {R : α → β → Prop} {a : α} {b? : Option β}
    (h : Option.Rel R (some a) b?) :
    ∃ b, b? = some b ∧ R a b := by
  cases h with
  | some h => exact ⟨_, rfl, h⟩

theorem rel_none {α β : Type} {R : α → β → Prop} {b? : Option β} (h : Option.Rel R none b?) :
    b? = none := by
  cases h
  rfl

/-- What is related is related otherwise. -/
theorem rel_imp {α β : Type} {R S : α → β → Prop} {a? : Option α} {b? : Option β}
    (h : Option.Rel R a? b?) (hRS : ∀ a b, a? = some a → b? = some b → R a b → S a b) :
    Option.Rel S a? b? := by
  cases h with
  | none => exact .none
  | some h => exact .some (hRS _ _ rfl rfl h)

/-- So are the members of lists. -/
theorem forall₂_imp {α β : Type} {R S : α → β → Prop} {as : List α} {bs : List β}
    (h : List.Forall₂ R as bs) (hRS : ∀ a ∈ as, ∀ b ∈ bs, R a b → S a b) :
    List.Forall₂ S as bs := by
  induction h with
  | nil => exact .nil
  | cons hab _ ih =>
    exact .cons (hRS _ List.mem_cons_self _ List.mem_cons_self hab)
      (ih fun a ha b hb => hRS a (List.mem_cons_of_mem _ ha) b (List.mem_cons_of_mem _ hb))

/-- **Rules that correspond:** they say alike things in corresponding places, what is merged is
    alike, and so are their parents. -/
structure Rule.Mirrors (L M : Likeness) (r r' : Rule) : Prop where
  alike : r.Alike L r'
  cell : Option.Rel M.cells r.cell r'.cell
  merged : Option.Rel (Styleset.Alike L) r.merged r'.merged
  parents : Option.Rel (fun b b' : StyleBody => List.Forall₂ (fun p p' : RuleRef =>
    M.scopes p.scope p'.scope ∧ p.key = p'.key) b.parents b'.parents) r.content.body?
      r'.content.body?

/-- **Scopes that say alike things in corresponding rules,** and are nested
    in corresponding ones. -/
structure Scope.Echoes (L M : Likeness) (s t : Scope) : Prop where
  named : s.named = t.named
  order : s.order = t.order
  rules : List.Forall₂ (Rule.Mirrors L M) s.rules t.rules
  owner : Option.Rel M.scopes s.owner t.owner
  children : List.Forall₂ M.scopes s.children t.children

/-- A relation between scopes that is about corresponding rules, whatever these are. -/
structure Scope.Reflects (L M : Likeness) (R : Scope → Scope → Prop) : Prop where
  rules {s t} : R s t → List.Forall₂ (Rule.Mirrors L M) s.rules t.rules
  setRule {s t} : R s t → ∀ (key : Nat) {r r' : Rule}, r.Mirrors L M r' →
    R (s.setRule key r) (t.setRule key r')

theorem Scope.echoes_reflects : Reflects L M (Scope.Echoes L M) where
  rules h := h.rules
  setRule h key _ _ hr := ⟨h.named, h.order, forall₂_set h.rules key hr, h.owner, h.children⟩

/-- What names the scopes have does not matter. -/
theorem Scope.Echoes.renamed {s s' t t' : Scope} (h : s.Echoes L M t) (hs : Renamed True s s')
    (ht : Renamed True t t') : s'.Echoes L M t' := by
  rw [hs.eq_names, ht.eq_names]
  exact ⟨h.named, h.order, h.rules, h.owner, h.children⟩

namespace Engine

variable {e e' f f' : Engine} {k j : ScopeId} {key : Nat} {R : Scope → Scope → Prop}

/-- **The scopes that correspond are related,** and no scope is listed twice. -/
structure Related (R : Scope → Scope → Prop) (M : Likeness) (e f : Engine) : Prop where
  scope {k j : ScopeId} : M.scopes k j →
    ∃ s t, e.scope? k = some s ∧ f.scope? j = some t ∧ R s t
  nodup : e.scopes.keys.Nodup ∧ f.scopes.keys.Nodup

namespace Related

/-- No scope is changed. -/
theorem aside (h : Related R M e f) (hscopes : e'.scopes = e.scopes)
    (hscopes' : f'.scopes = f.scopes) : Related R M e' f' := by
  refine ⟨fun {k j} hkj => ?_, ?_⟩
  · obtain ⟨s, t, hs, ht, hst⟩ := h.scope hkj
    exact ⟨s, t, by rw [scope?, hscopes]; exact hs, by rw [scope?, hscopes']; exact ht, hst⟩
  · rw [hscopes, hscopes']
    exact h.nodup

theorem report (h : Related R M e f) (event event' : Event) :
    Related R M (e.report event) (f.report event') := h.aside rfl rfl

/-- Scopes are changed on both sides, but stay related. -/
theorem rescoped {Q : Scope → Scope → Prop} (h : Related R M e f)
    (hQ : ∀ {s s' t t'}, Q s s' → Q t t' → R s t → R s' t')
    (he : Rescoped (fun _ => Q) e e') (hf : Rescoped (fun _ => Q) f f') : Related R M e' f' where
  scope hkj := by
    obtain ⟨s, t, hs, ht, hst⟩ := h.scope hkj
    obtain ⟨s', hs', hss'⟩ := he.scope hs
    obtain ⟨t', ht', htt'⟩ := hf.scope ht
    exact ⟨s', t', hs', ht', hQ hss' htt' hst⟩
  nodup := by
    rw [he.keys, hf.keys]
    exact h.nodup

/-- Corresponding scopes are changed alike. -/
theorem modifyScope (h : Related R M e f) (hM : M.Exact) (hkj : M.scopes k j) {g g' : Scope → Scope}
    (hg : ∀ {s t}, R s t → R (g s) (g' t)) :
    Related R M (e.modifyScope k g) (f.modifyScope j g') := by
  refine ⟨fun {k' j'} hkj' => ?_, ?_⟩
  · by_cases heq : k' = k
    · subst heq
      obtain rfl := hM.scopes.2 hkj hkj'
      obtain ⟨s, t, hs, ht, hst⟩ := h.scope hkj
      exact ⟨g s, g' t, scope?_modifyScope_self g hs, scope?_modifyScope_self g' ht, hg hst⟩
    · have hne : j' ≠ j := fun heq' => heq (hM.scopes.1 (heq' ▸ hkj') hkj)
      rw [scope?_modifyScope_of_ne g heq, scope?_modifyScope_of_ne g' hne]
      exact h.scope hkj'
  · rw [keys_modifyScope, keys_modifyScope]
    exact h.nodup

theorem rule? (h : Related R M e f) (hR : Scope.Reflects L M R) (hkj : M.scopes k j) (key : Nat) :
    Option.Rel (Rule.Mirrors L M) (e.rule? k key) (f.rule? j key) := by
  obtain ⟨s, t, hs, ht, hst⟩ := h.scope hkj
  unfold Engine.rule?
  rw [hs, ht]
  exact forall₂_getElem? (hR.rules hst) key

/-! ### Merging -/

/-- **What is merged is kept with corresponding rules.** -/
theorem setMerged (hR : Scope.Reflects L M R) (hM : M.Exact) (h : Related R M e f)
    (hkj : M.scopes k j) (key : Nat) {styles styles' : Styleset}
    (hstyles : styles.Alike L styles') :
    Related R M (e.setMerged k key styles) (f.setMerged j key styles') := by
  have hrule := h.rule? hR hkj key
  unfold Engine.setMerged
  generalize e.rule? k key = rule, f.rule? j key = rule' at hrule
  cases hrule with
  | none => exact h
  | some hrule =>
    exact h.modifyScope hM hkj fun hst => hR.setRule hst key
      ⟨⟨hrule.alike.content, hrule.alike.explicitName, hrule.alike.slot⟩, hrule.cell, .some hstyles,
        hrule.parents⟩

/-- What is merged of the parents of corresponding rules is alike, if so it is for each of them. -/
theorem mergeParents {idle idle' : List (ScopeId × Nat)}
    (hmerge : ∀ {e f : Engine} {k j : ScopeId} (key : Nat), Related R M e f → M.scopes k j →
      (mergeWithin idle k key e).1.Alike L (mergeWithin idle' j key f).1 ∧
        Related R M (mergeWithin idle k key e).2 (mergeWithin idle' j key f).2)
    {parents parents' : List RuleRef} (hparents : List.Forall₂ (fun p p' : RuleRef =>
      M.scopes p.scope p'.scope ∧ p.key = p'.key) parents parents') {start start' : Styleset}
    (hstart : start.Alike L start') (h : Related R M e f) :
    (mergeParents idle parents start e).1.Alike L (Engine.mergeParents idle' parents' start' f).1 ∧
      Related R M (Engine.mergeParents idle parents start e).2
        (Engine.mergeParents idle' parents' start' f).2 := by
  induction hparents generalizing start start' e f with
  | nil => exact ⟨hstart, h⟩
  | @cons p p' _ _ hp _ ih =>
    obtain ⟨hscopes, hkey⟩ := hp
    obtain ⟨hstyles, h₁⟩ := hmerge p.key h hscopes
    rw [mergeParents_cons, mergeParents_cons, ← hkey]
    exact ih (hstart.merge hstyles) h₁

/-- One more pair of corresponding rules is being merged. -/
theorem mem_erase_iff_of_mem_iff (hM : M.Exact) {idle idle' : List (ScopeId × Nat)}
    (hnodup : idle.Nodup)
    (hnodup' : idle'.Nodup)
    (hidle : ∀ {k j} key, M.scopes k j → ((k, key) ∈ idle ↔ (j, key) ∈ idle'))
    (hkj : M.scopes k j) (key : Nat) {k' j' : ScopeId} (key' : Nat) (hkj' : M.scopes k' j') :
    (k', key') ∈ idle.erase (k, key) ↔ (j', key') ∈ idle'.erase (j, key) := by
  have hiff : k' = k ↔ j' = j :=
    ⟨fun heq => hM.scopes.2 (heq ▸ hkj') hkj, fun heq => hM.scopes.1 (heq ▸ hkj') hkj⟩
  rw [hnodup.mem_erase_iff, hnodup'.mem_erase_iff, hidle key' hkj', ne_eq, ne_eq, Prod.mk.injEq,
    Prod.mk.injEq, hiff]

/-- **What is merged of corresponding rules is alike,** if corresponding rules are being merged. -/
theorem mergeWithin (hR : Scope.Reflects L M R) (hM : M.Exact)
    {idle idle' : List (ScopeId × Nat)} (hnodup : idle.Nodup) (hnodup' : idle'.Nodup)
    (hidle : ∀ {k j} key, M.scopes k j → ((k, key) ∈ idle ↔ (j, key) ∈ idle'))
    (h : Related R M e f) (hkj : M.scopes k j) (key : Nat) :
    (Engine.mergeWithin idle k key e).1.Alike L (Engine.mergeWithin idle' j key f).1 ∧
      Related R M (Engine.mergeWithin idle k key e).2 (Engine.mergeWithin idle' j key f).2 := by
  -- On the number of rules that nobody is merging yet, of the first engine.
  induction hn : idle.length using Nat.strong_induction_on generalizing idle idle' k j key e f with
  | h n ih =>
    have hrule := h.rule? hR hkj key
    cases hr : e.rule? k key with
    | none =>
      have hr' := rel_none (hr ▸ hrule)
      rw [mergeWithin_missing hr, mergeWithin_missing hr']
      exact ⟨.empty, h.report _ _⟩
    | some r =>
      obtain ⟨r', hr', hrule⟩ := rel_some (hr ▸ hrule)
      cases hm : r.merged with
      | some m =>
        obtain ⟨m', hm', hstyles⟩ := rel_some (hm ▸ hrule.merged)
        rw [mergeWithin_known hr hm, mergeWithin_known hr' hm']
        exact ⟨hstyles, h⟩
      | none =>
        have hm' := rel_none (hm ▸ hrule.merged)
        cases hbody : r.content.body? with
        | none =>
          have hbody' := rel_none (hbody ▸ hrule.parents)
          rw [mergeWithin_bodiless hr hm hbody, mergeWithin_bodiless hr' hm' hbody']
          -- Both rules have a body and are not merged: what remains is whether they are being
          -- merged.
          exact ⟨.empty, h⟩
        | some body =>
          obtain ⟨body', hbody', hparents⟩ := rel_some (hbody ▸ hrule.parents)
          have hbodies : body.Alike L body' := by
            have hrel := hrule.alike.content.body?
            rw [hbody, hbody'] at hrel
            exact Option.rel_some_some.mp hrel
          by_cases hin : (k, key) ∈ idle
          · -- From now on the two rules are being merged, until their parents are.
            have hin' := (hidle key hkj).mp hin
            have hlength : (idle.erase (k, key)).length < n := by
              have := List.length_pos_of_mem hin
              rw [List.length_erase_of_mem hin]
              omega
            obtain ⟨hinherited, h₁⟩ :=
              mergeParents (fun key' h hkj' => ih _ hlength (hnodup.erase _)
              (hnodup'.erase _) (mem_erase_iff_of_mem_iff hM hnodup hnodup' hidle hkj key)
              h hkj' key' rfl)
              hparents .empty h
            have hstyles := hinherited.merge hbodies.styleset
            rw [mergeWithin_fresh hr hm hbody hin, mergeWithin_fresh hr' hm' hbody' hin']
            exact ⟨hstyles, h₁.setMerged hR hM hkj key hstyles⟩
          -- A cycle is closed in both engines, and both report it.
          · have hin' : (j, key) ∉ idle' := fun hin' => hin ((hidle key hkj).mpr hin')
            rw [mergeWithin_cyclic hr hm hbody hin, mergeWithin_cyclic hr' hm' hbody' hin']
            exact ⟨hbodies.styleset, h.report _ _⟩

/-- The places of rules are those where there are rules. -/
theorem mem_allRules_iff (hnodup : e.scopes.keys.Nodup) :
    (k, key) ∈ e.allRules ↔ ∃ rule, e.rule? k key = some rule := by
  refine ⟨fun hmem => ?_, fun ⟨_, hr⟩ => mem_allRules hr⟩
  obtain ⟨⟨id, s⟩, hs, hmem⟩ := List.mem_flatMap.mp hmem
  obtain ⟨key', hkey, heq⟩ := List.mem_map.mp hmem
  cases heq
  have hlt : key < s.rules.length := List.mem_range.mp hkey
  exact ⟨s.rules[key],
    rule?_eq_some_iff.mpr ⟨s, Dict.get?_of_mem hnodup hs, List.getElem?_eq_getElem hlt⟩⟩

/-- **Merging keeps it so.** -/
theorem mergeAt (hR : Scope.Reflects L M R) (hM : M.Exact) (h : Related R M e f)
    (hkj : M.scopes k j) (key : Nat) :
    Related R M (mergeAt k key e).2 (Engine.mergeAt j key f).2 := by
  -- At the start every rule may be merged; both engines list the same ones.
  have hidle : ∀ {k j} key, M.scopes k j → ((k, key) ∈ e.allRules ↔ (j, key) ∈ f.allRules) := by
    intro k j key hkj
    rw [mem_allRules_iff h.nodup.1, mem_allRules_iff h.nodup.2, ← Option.isSome_iff_exists,
      ← Option.isSome_iff_exists]
    have hrule := h.rule? hR hkj key
    generalize e.rule? k key = rule, f.rule? j key = rule' at hrule
    cases hrule <;> simp
  obtain ⟨hstyles, h₁⟩ :=
    h.mergeWithin hR hM (nodup_allRules h.nodup.1) (nodup_allRules h.nodup.2) hidle hkj key
  have hrule := h.rule? hR hkj key
  unfold Engine.mergeAt
  simp only [stateful_bind, stateful_get]
  cases hr : e.rule? k key with
  | none =>
    have hr' := rel_none (hr ▸ hrule)
    rw [hr']
    exact h
  | some r =>
    obtain ⟨r', hr', hrule⟩ := rel_some (hr ▸ hrule)
    cases hbody : r.content.body? with
    | none =>
      have hbody' := rel_none (hbody ▸ hrule.parents)
      simp only [hr', Option.bind_some, hbody, hbody']
      exact h
    | some body =>
      obtain ⟨body', hbody', -⟩ := rel_some (hbody ▸ hrule.parents)
      simp only [hr', Option.bind_some, hbody, hbody']
      exact h₁.setMerged hR hM hkj key hstyles

end Related

/-! ### Processing -/

/-- **Two computations in step:** they take related engines to related ones, if both succeed. -/
structure InStep (P : Engine → Engine → Prop) (c c' : EngineM Unit) : Prop where
  run {e e' f f' : Engine} : P e f → c e = (.ok (), e') → c' f = (.ok (), f') → P e' f'

namespace InStep

variable {P : Engine → Engine → Prop} {c c' d d' : EngineM Unit}

theorem bind (h : InStep P c c') (h' : InStep P d d') :
    InStep P (c >>= fun _ => d) (c' >>= fun _ => d') where
  run hef hrun hrun' := by
    obtain ⟨⟨⟩, e₁, hfirst, hrest⟩ := stateful_bind_eq_ok hrun
    obtain ⟨⟨⟩, f₁, hfirst', hrest'⟩ := stateful_bind_eq_ok hrun'
    exact h'.run (h.run hef hfirst hfirst') hrest hrest'

theorem modify {g g' : Engine → Engine} (h : ∀ {e f}, P e f → P (g e) (g' f)) :
    InStep P (MonadState.modifyGet fun e => ((), g e))
      (MonadState.modifyGet fun e => ((), g' e)) where
  run hef hrun hrun' := by
    cases hrun
    cases hrun'
    exact h hef

theorem forEach {α β : Type} {R : α → β → Prop} {step : α → EngineM Unit} {step' : β → EngineM Unit}
    (h : ∀ {a b}, R a b → InStep P (step a) (step' b)) {as : List α} {bs : List β}
    (hlist : List.Forall₂ R as bs) :
    InStep P (Engine.forEach step as) (Engine.forEach step' bs) := by
  induction hlist with
  | nil => exact modify id
  | cons hab _ ih => exact (h hab).bind ih

/-- **The steps for the rules of corresponding scopes.** Names are given on both sides, which do
    not matter, and what is merged is alike. -/
theorem processRules (hM : M.Exact) (hkj : M.scopes k j) (keys : List Nat) :
    InStep (Related (Scope.Echoes L M) M) (processRules k keys) (Engine.processRules j keys) := by
  have hnames (key : Nat) : InStep (Related (Scope.Echoes L M) M) (assignName k key)
      (assignName j key) := ⟨fun {e e' f f'} h hrun hrun' => by
    have he := assignName_renamed k key e
    have hf := assignName_renamed j key f
    rw [hrun] at he
    rw [hrun'] at hf
    exact h.rescoped (fun hs ht hst => hst.renamed hs ht)
      (he.mono fun _ _ _ _ hR => hR.mono fun _ => trivial)
      (hf.mono fun _ _ _ _ hR => hR.mono fun _ => trivial)⟩
  have hmerge (key : Nat) : InStep (Related (Scope.Echoes L M) M) (mergeAt k key)
      (mergeAt j key) := ⟨fun h hrun hrun' => by
    simpa only [hrun, hrun'] using h.mergeAt Scope.echoes_reflects hM hkj key⟩
  have hkeys : List.Forall₂ Eq keys keys := List.forall₂_same.mpr fun _ _ => rfl
  refine (forEach (fun heq => heq ▸ hnames _) hkeys).bind <|
    (forEach (fun heq => heq ▸ hmerge _) hkeys).bind <| modify fun h => ?_
  exact h.modifyScope hM hkj fun hst =>
    ⟨hst.named, hst.order, hst.rules, hst.owner, hst.children⟩

/-- **Processing keeps scopes echoing each other.** -/
theorem processWithin (hM : M.Exact) (limit limit' : Nat) (hkj : M.scopes k j) :
    InStep (Related (Scope.Echoes L M) M) (processWithin limit k)
      (Engine.processWithin limit' j) := by
  induction limit generalizing limit' k j with
  | zero => exact ⟨fun _ hrun => nomatch hrun⟩
  | succ limit ih =>
    refine ⟨fun {e e' f f'} h hrun hrun' => ?_⟩
    cases limit' with
    | zero => cases hrun'
    | succ limit' =>
      obtain ⟨s, t, hs, ht, hst⟩ := h.scope hkj
      rw [processWithin_succ, stateful_bind_ok (requireScope_some hs)] at hrun
      rw [processWithin_succ, stateful_bind_ok (requireScope_some ht), ← hst.order] at hrun'
      refine ((processRules hM hkj s.order).bind <|
        (forEach (fun hcc' => ih limit' hcc') hst.children).bind <|
        (modify fun h => ?_).bind <| modify fun h => h.report _ _).run h hrun hrun'
      exact h.modifyScope hM hkj fun hst =>
        ⟨hst.named, hst.order, hst.rules, hst.owner, hst.children⟩

end InStep

end Engine

end StyleBook
