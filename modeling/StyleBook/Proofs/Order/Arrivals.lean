import StyleBook.Proofs.Order.Mentions

namespace StyleBook

/-!
# How definitions got their scopes

A scope of a definition tells how it came about: at some time the definition was reached and had no
scope, its script declared, and the new scope was processed. What the engine had at that time it
still has, and so have the definitions whose scopes were there already.

* `Arrival` — a definition gets a scope;
* `Engine.Arrived` — the scope of a definition came about in this way, some time ago;
* `Engine.Recorded` — so did all processed scopes of definitions, each after those that it found;
* `Proceeds.adds` — this is kept while scripts proceed and definitions are reached, and processed
  scopes mention processed ones only.
-/

open Engine

variable {μ : Type} {library : Library μ} {keys : Nat → Prop} {root k : ScopeId}
  {roots : List ScopeId} {s s' s₁ : Engine × μ} {start e e' : Engine} {definition d : Nat}
  {units : UnitTable}

/-- A definition that was opened has the new scope. -/
theorem Engine.scopeOf?_opened {d : Definition μ} {e : Engine} (h : d.multiplex = false) :
    (opened d e).scopeOf? d.key = some e.nextScope := by
  show Dict.get? d.key
    (if d.multiplex then e.singletons else e.singletons.insert d.key e.nextScope) = _
  rw [h]
  exact Dict.get?_insert_self _ _ _

/-- A definition that was reached has the scope, if it has only one. -/
theorem Proceeds.entry (hcircle : Circle library keys) {id : ScopeId}
    (h : Proceeds library (.reach definition id) s s') (hkey : keys definition)
    (hsingle : (library definition).multiplex = false) (ho : Orderly roots s.1) :
    s'.1.scopeOf? definition = some id := by
  cases h with
  | known hid _ => rwa [hcircle.key hkey] at hid
  | @new _ e m e₁ m₁ e' hnew hkeys declared hproc =>
    have hstage := (ho.opened hcircle hkey hnew).1
    have hd := declared.secluded hcircle hstage
    have hend := hd.grows.endures.trans <| (Endures.endConstruction e₁).trans <|
      .processed hd.orderly.sound.endConstruction hproc
    have hopened := scopeOf?_opened (e := e) hsingle
    rw [hcircle.key hkey] at hopened
    exact hend.entries hopened

/-! ### Arrivals -/

/-- **A definition gets a scope:** it has none, its script declares in a new one, which is processed
    then. -/
structure Arrival (library : Library μ) (keys : Nat → Prop) (definition : Nat)
    (roots : List ScopeId) (s s₁ : Engine × μ) (e' : Engine) : Prop where
  key : keys definition
  orderly : Orderly roots s.1
  unknown : s.1.scopeOf? (library definition).key = none
  declared : Proceeds library (.declare (library definition).script ⟨s.1.nextScope, 0⟩)
    (opened (library definition) s.1, s.2) s₁
  processed : processScope s.1.nextScope s₁.1.endConstruction = (.ok (), e')
  leaves : Leaves roots s.1 e'

/-- The definition that declared last has done so. -/
theorem Engine.Orderly.endConstruction (h : Orderly roots e) : Orderly roots e.endConstruction where
  sound := h.sound.endConstruction
  inherits := h.inherits.aside rfl rfl rfl
  vacant := h.vacant.aside rfl rfl rfl rfl rfl rfl
  unnamed := h.unnamed
  layered := ⟨h.layered.base_ready, h.layered.ranked⟩
  labelled := ⟨h.labelled.owned, h.labelled.labelled⟩

namespace Arrival

variable (hcircle : Circle library keys) (h : Arrival library keys definition roots s s₁ e')
include hcircle h

/-- The script of the definition stands in the new scope. -/
theorem stage : Stage keys s.1.nextScope roots (library definition).script ⟨s.1.nextScope, 0⟩
    (opened (library definition) s.1) := (h.orderly.opened hcircle h.key h.unknown).1

/-- The script has declared. -/
theorem declares : Declares s.1.nextScope roots (opened (library definition) s.1) s₁.1 :=
  h.declared.secluded hcircle (h.stage hcircle)

/-- The scope is processed. -/
theorem process : Endures s₁.1.endConstruction e' :=
  .processed (h.declares hcircle).orderly.sound.endConstruction h.processed

/-- What the script has declared stays. -/
theorem endures : Endures s₁.1 e' := (Endures.endConstruction s₁.1).trans (h.process hcircle)

/-- The new scope is processed in the end. -/
theorem settles : e'.Settles s.1.nextScope := by
  have hs := (h.declares hcircle).orderly.sound.endConstruction
  have hproc := hs.pending.processScope hs
  rw [h.processed] at hproc
  obtain ⟨t, ht, -⟩ := hs.root_owner List.mem_cons_self
  obtain ⟨t', ht', -⟩ := hproc.progressed.scope ht
  exact ⟨t', ht', hproc.settled rfl (.root ht) ht'⟩

/-- The definition has the scope in the end, if it has only one. -/
theorem entry (hsingle : (library definition).multiplex = false) :
    e'.scopeOf? definition = some s.1.nextScope := by
  have hopened := scopeOf?_opened (e := s.1) hsingle
  rw [hcircle.key h.key] at hopened
  exact (h.endures hcircle).entries ((h.declares hcircle).grows.entries hopened)

end Arrival

namespace Engine

/-- **The scope of a definition came about some time ago,** after the start, when processed scopes
    mentioned processed ones only. -/
structure Arrived (library : Library μ) (keys : Nat → Prop) (start : Engine) (units : UnitTable)
    (e : Engine) (d : Nat) (k : ScopeId) (roots : List ScopeId) (s s₁ : Engine × μ) (e' : Engine) :
    Prop extends Arrival library keys d roots s s₁ e' where
  id : k = s.1.nextScope
  ages : Ages start s.1
  mentions : Mentions units s.1.Settles s.1.Settles s.1
  since : Endures e' e

/-- **So it did, and so did the processed scopes of definitions that were there.** -/
inductive Traced (library : Library μ) (keys : Nat → Prop) (start : Engine) (units : UnitTable) :
    Engine → Nat → ScopeId → Prop
  | intro {e : Engine} {d : Nat} {k : ScopeId} {roots : List ScopeId} {s s₁ : Engine × μ}
    {e' : Engine} (h : Arrived library keys start units e d k roots s s₁ e')
    (before : ∀ d' k', s.1.scopeOf? d' = some k' → s.1.Settles k' →
      Traced library keys start units s.1 d' k') : Traced library keys start units e d k

/-- What came about stays so. -/
theorem Traced.later (h : Traced library keys start units e d k) (hend : Endures e e') :
    Traced library keys start units e' d k := by
  cases h with
  | intro h before => exact .intro { h with since := h.since.trans hend } before

/-- **All processed scopes of definitions came about since the start.** -/
structure Recorded (library : Library μ) (keys : Nat → Prop) (start : Engine) (units : UnitTable)
    (e : Engine) : Prop where
  ages : Ages start e
  scope {d : Nat} {k : ScopeId} : e.scopeOf? d = some k → e.Settles k →
    Traced library keys start units e d k

/-- No definition got a scope that is processed. -/
theorem Recorded.later (h : Recorded library keys start units e) (hend : Endures e e')
    (hback : ∀ {d k}, e'.scopeOf? d = some k → e'.Settles k →
      e.scopeOf? d = some k ∧ e.Settles k) : Recorded library keys start units e' where
  ages := trans_of Ages h.ages hend.ages
  scope hk hsettled := by
    obtain ⟨hk₀, hsettled₀⟩ := hback hk hsettled
    exact (h.scope hk₀ hsettled₀).later hend

/-- **Definitions may have got scopes,** which came about like those that were there. Those that
    are still declaring had opened theirs. -/
structure Adds (library : Library μ) (keys : Nat → Prop) (start : Engine) (units : UnitTable)
    (e e' : Engine) : Prop where
  recorded : Recorded library keys start units e → Recorded library keys start units e'
  entries {d : Nat} {k : ScopeId} : e'.scopeOf? d = some k → e.scopeOf? d = some k ∨ e'.Settles k

namespace Adds

variable {e₁ e₂ : Engine}

theorem refl (e : Engine) : Adds library keys start units e e := ⟨id, .inl⟩

theorem trans (h : Adds library keys start units e e₁) (h' : Adds library keys start units e₁ e₂)
    (hend : Endures e₁ e₂) : Adds library keys start units e e₂ where
  recorded := h'.recorded ∘ h.recorded
  entries hk := (h'.entries hk).elim (fun hk => (h.entries hk).imp id hend.settles) .inr

/-- A step of a script processes no scope of a definition, for its own is not processed. -/
theorem declares (hl : Linked e) (hd : Declares root roots e e')
    (hsame : e'.singletons = e.singletons) : Adds library keys start units e e' := by
  have hentry : ∀ {d k}, e'.scopeOf? d = some k → e.scopeOf? d = some k := fun hk => by
    rwa [scopeOf?, hsame] at hk
  refine ⟨fun h => h.later hd.grows.endures fun {d k} hk hsettled => ?_, fun hk => .inl (hentry hk)⟩
  obtain ⟨t, ht, -⟩ := hl.singleton_live (hentry hk)
  obtain ⟨t', ht', hsettled'⟩ := hsettled
  by_cases hin : e.Inside root k
  · exact absurd hsettled' (hd.orderly.sound.unsettled List.mem_cons_self
      (hd.grows.extended.inside hin) ht')
  · cases (hd.secludes k t ht hin).symm.trans ht'
    exact ⟨hentry hk, t, ht, hsettled'⟩

end Adds

/-- Only the definition that is opened gets an entry, for the new scope. -/
theorem scopeOf?_opened_cases {D : Definition μ} (hk : (opened D e).scopeOf? d = some k) :
    e.scopeOf? d = some k ∨ d = D.key ∧ k = e.nextScope := by
  change Dict.get? d (if D.multiplex then e.singletons
    else e.singletons.insert D.key e.nextScope) = _ at hk
  split at hk
  · exact .inl hk
  · rw [Dict.get?_insert] at hk
    split at hk
    · next heq => exact .inr ⟨heq, (Option.some.inj hk).symm⟩
    · exact .inl hk

/-- The scope that a definition opens is not processed before its script has declared. -/
theorem Recorded.opened {D : Definition μ} (h : Recorded library keys start units e)
    (hgrows : Grows e (opened D e)) : Recorded library keys start units (opened D e) :=
  h.later hgrows.endures fun {d k} hk ⟨t, ht, hsettled⟩ => by
    rw [scope?_opened] at ht
    split at ht
    · cases ht
      exact absurd rfl hsettled
    · next hne => exact ⟨(scopeOf?_opened_cases hk).resolve_right fun h => hne h.2, t, ht, hsettled⟩

end Engine

/-- **A definition gets a scope,** and so did those that it reached. -/
theorem Arrival.adds (hcircle : Circle library keys)
    (h : Arrival library keys definition roots s s₁ e')
    (hmentions : Mentions units s.1.Settles s.1.Settles s.1)
    (hscript : Adds library keys start units (opened (library definition) s.1) s₁.1) :
    Adds library keys start units s.1 e' := by
  have hend := h.endures hcircle
  have hgrows := (h.orderly.opened hcircle h.key h.unknown).2
  -- The entries were made before the script, for the new scope, or while the script ran.
  have hentry : ∀ {d k}, e'.scopeOf? d = some k → s.1.scopeOf? d = some k ∨
      d = definition ∧ k = s.1.nextScope ∨ s₁.1.Settles k := fun {d k} hk => by
    have hsame := (processScope_undisturbed s.1.nextScope s₁.1.endConstruction).singletons
    rw [h.processed] at hsame
    rw [scopeOf?, hsame] at hk
    rcases hscript.entries hk with hk | hsettled
    · exact (scopeOf?_opened_cases hk).imp id fun hnew => .inl (hcircle.key h.key ▸ hnew)
    · exact .inr (.inr hsettled)
  refine ⟨fun hstart => ⟨trans_of Ages hstart.ages h.leaves.grows.evolves.ages,
    fun {d k} hk hsettled => ?_⟩, fun {d k} hk => ?_⟩
  · have hfound := hscript.recorded (hstart.opened hgrows)
    rcases hentry hk with hk₀ | ⟨rfl, rfl⟩ | hsettled₁
    · obtain ⟨t, ht, -⟩ := h.orderly.sound.linked.singleton_live hk₀
      obtain ⟨t', ht', hsettled'⟩ := hsettled
      cases (h.leaves.scope ht).symm.trans ht'
      exact (hstart.scope hk₀ ⟨t, ht, hsettled'⟩).later h.leaves.grows.endures
    · exact .intro ⟨h, rfl, hstart.ages, hmentions, (refl_of Grows e').endures⟩
        fun _ _ => hstart.scope
    · have hsame := (processScope_undisturbed s.1.nextScope s₁.1.endConstruction).singletons
      rw [h.processed] at hsame
      rw [scopeOf?, hsame] at hk
      exact (hfound.scope hk hsettled₁).later hend
  · rcases hentry hk with hk₀ | ⟨rfl, rfl⟩ | hsettled₁
    · exact .inl hk₀
    · exact .inr (h.settles hcircle)
    · exact .inr (hend.settles hsettled₁)

/-- What a task adds, and what processed scopes mention then. -/
def Task.Adds (library : Library μ) (keys : Nat → Prop) (start : Engine) (units : UnitTable)
    (s s' : Engine × μ) : Task μ → Prop
  | .declare script b => ∀ {root roots}, Circumspect keys units root roots script b s.1 →
    Discreet units root s'.1 ∧ Engine.Adds library keys start units s.1 s'.1
  | .reach definition _ => ∀ {roots}, keys definition → Orderly roots s.1 →
    Mentions units s.1.Settles s.1.Settles s.1 →
    Mentions units s'.1.Settles s'.1.Settles s'.1 ∧
      Engine.Adds library keys start units s.1 s'.1

/-- **Every definition that got a scope on the way arrived,** and processed scopes mention processed
    ones only. -/
theorem Proceeds.adds (hcircle : Circle library keys) {task : Task μ}
    (h : Proceeds library task s s') : task.Adds library keys start units s s' := by
  -- Building adds no entry but at `new`; every other case passes on what its parts added.
  induction h with
  | done => exact fun h => ⟨h.discreet, .refl _⟩
  | @add slot rule next b e e₁ m s' r hadd rest ih =>
    intro root roots h
    obtain ⟨hd, h₁⟩ := h.add hadd
    have hsame := (addRule_undisturbed b.scope slot rule e).singletons
    rw [hadd] at hsame
    obtain ⟨hm', hadds⟩ := ih h₁
    exact ⟨hm', .trans (.declares h.orderly.sound.linked hd hsame) hadds
      (rest.secluded hcircle h₁.toStage).grows.endures⟩
  | @addUnnamed rule next b e e₁ m s' r hadd rest ih =>
    intro root roots h
    obtain ⟨hd, h₁⟩ := h.addUnnamed hadd
    have hsame := (addUnnamedRule_undisturbed b.scope rule e).singletons
    rw [hadd] at hsame
    obtain ⟨hm', hadds⟩ := ih h₁
    exact ⟨hm', .trans (.declares h.orderly.sound.linked hd hsame) hadds
      (rest.secluded hcircle h₁.toStage).grows.endures⟩
  | find rest ih => exact fun h => ih h.find
  | scope rest ih => exact fun h => ih h.scope
  -- Reaching the base may add entries, linking it adds none, and its script may add some again.
  | @extend definition next b base s s₁ s₂ s₃ s' reached hbase extended rest ihr ihd ih =>
    intro root roots h
    have hreach := reached.secluded hcircle h.stays.1 h.orderly
    obtain ⟨hm₁, hadds₁⟩ := ihr h.stays.1 h.orderly h.discreet.settled
    obtain ⟨hset, hbase₂, h₂⟩ := h.extension hcircle hreach hm₁
      (reached.reach_sound h.orderly.sound).2.2 hbase
    have hd₃ := extended.secluded hcircle h₂.toStage
    obtain ⟨hm₃, hadds₃⟩ := ihd h₂
    have hl := h.orderly.sound.linked
    have h₃ := h.extend ((hreach.declares.trans hset hl).trans hd₃ hl)
      (hd₃.grows.extended.settles hbase₂) hm₃
    obtain ⟨hm', hadds⟩ := ih h₃
    have hsame : s₂.1.singletons = s₁.1.singletons := by
      unfold Script.setBase at hbase
      split at hbase <;> cases hbase
      · exact singletons_modifyScope _
      · rfl
    have hrest := (rest.secluded hcircle h₃.toStage).grows.endures
    exact ⟨hm', .trans hadds₁ (.trans (.declares hreach.orderly.sound.linked hset hsame)
      (.trans hadds₃ hadds hrest) (hd₃.grows.endures.trans hrest))
      (hset.grows.endures.trans (hd₃.grows.endures.trans hrest))⟩
  | @use definition next b used refs e m e₁ m₁ s' reached hrefs rest ihr ih =>
    intro root roots h
    have hreach := reached.secluded hcircle h.stays.1 h.orderly
    obtain ⟨hm₁, hadds₁⟩ := ihr h.stays.1 h.orderly h.discreet.settled
    obtain ⟨href, h₂⟩ := h.use hreach hm₁ (reached.reach_sound h.orderly.sound).2.2 hrefs
    obtain ⟨hm', hadds⟩ := ih h₂
    have hrest := (rest.secluded hcircle h₂.toStage).grows.endures
    exact ⟨hm', .trans hadds₁ (.trans (.declares hreach.orderly.sound.linked href
      (singletons_modifyScope _)) hadds hrest) (href.grows.endures.trans hrest)⟩
  | @group condition body next b child r e m e₁ e₂ m₂ e₃ s' hchild grouped hrule rest ihb ih =>
    intro root roots h
    obtain ⟨hd₁, hbody⟩ := h.groupBody hchild
    -- The nested scope has no key of its own: entries come from the body alone.
    have hd₂ := grouped.secluded hcircle hbody.toStage
    obtain ⟨hm₂, hadds₂⟩ := ihb hbody
    obtain ⟨hlast, h₃⟩ := h.group (hd₁.trans hd₂ h.orderly.sound.linked)
      (hd₂.grows.extended.inside hbody.inside) hm₂ hrule
    obtain ⟨hm', hadds⟩ := ih h₃
    have hsame := (addNested_undisturbed b.scope e).singletons
    have hsame' := (addUnnamedRule_undisturbed b.scope
      (.ofContent (.group condition child)) e₂).singletons
    rw [hchild] at hsame
    rw [hrule] at hsame'
    have hrest := (rest.secluded hcircle h₃.toStage).grows.endures
    exact ⟨hm', .trans (.declares h.orderly.sound.linked hd₁ hsame) (.trans hadds₂
      (.trans (.declares hd₂.orderly.sound.linked hlast hsame') hadds hrest)
        (hlast.grows.endures.trans hrest))
      (hd₂.grows.endures.trans (hlast.grows.endures.trans hrest))⟩
  | nameOf rest ih => exact fun h => ih (h.nameOf _)
  | report rest ih =>
    intro root roots h
    obtain ⟨hd, h₁⟩ := h.report
    obtain ⟨hm', hadds⟩ := ih h₁
    exact ⟨hm', .trans (.declares h.orderly.sound.linked hd rfl) hadds
      (rest.secluded hcircle h₁.toStage).grows.endures⟩
  | look => exact fun h => nomatch h.alike
  | remember rest ih => exact fun h => ih h.remember
  | known => exact fun _ _ hm => ⟨hm, .refl _⟩
  | @new definition e m e₁ m₁ e' hnew hkey declared hproc ih =>
    intro roots hkeys ho hm
    have hreach : Proceeds library (.reach definition e.nextScope) (e, m) (e', m₁) :=
      .new hnew hkey declared hproc
    have harrival : Arrival library keys definition roots (e, m) (e₁, m₁) e' :=
      ⟨hkeys, ho, hnew, declared, hproc, hreach.secluded hcircle hkeys ho⟩
    -- The definition itself arrived before what its script reached was over.
    obtain ⟨hm₁, hadds⟩ := ih (.opened hcircle hkeys ho hnew hm)
    exact ⟨hm₁.endConstruction.processed (harrival.declares hcircle).orderly.endConstruction hproc,
      harrival.adds hcircle hm hadds⟩

namespace Proceeds

variable {id : ScopeId} {script : Script μ} {b : Builder}

/-- Processed scopes mention processed ones only, when a definition is reached. -/
theorem mentions (h : Proceeds library (.reach definition id) s s') (hcircle : Circle library keys)
    (hkey : keys definition) (ho : Orderly roots s.1)
    (hm : Mentions units s.1.Settles s.1.Settles s.1) :
    Mentions units s'.1.Settles s'.1.Settles s'.1 := by
  have hadds : Task.Adds library keys s.1 units s s' (.reach definition id) := h.adds hcircle
  exact (hadds hkey ho hm).1

/-- So they do when a script has declared, which mentions only what it knows. -/
theorem discreet (h : Proceeds library (.declare script b) s s') (hcircle : Circle library keys)
    (hscript : Circumspect keys units root roots script b s.1) : Discreet units root s'.1 := by
  have hadds : Task.Adds library keys s.1 units s s' (.declare script b) := h.adds hcircle
  exact (hadds hscript).1

end Proceeds

end StyleBook
