import StyleBook.Proofs.Order.Encores
import StyleBook.Proofs.Order.Orders
import StyleBook.Proofs.Order.Reruns

namespace StyleBook

/-!
# Definitions that only extend another one

A definition whose script does nothing but extend another one has the same text. Its scope declares
what that one has declared, inherits alike things, and takes over its names, in readable mode and in
optimized mode.

* `Engine.Encore.render` — a scope that declares once more what another one has declared has the
  same text;
* `Extension.encore` — a definition that extends another one declares once
  more what it has declared;
* `Arrival.of_extension` — it gets its scope, if the other one has one;
* `Ordered.extension_agrees` — **both have the same text.**
-/

open Engine

variable {μ : Type} {library : Library μ} {keys line : Nat → Prop} {root root' k j : ScopeId}
  {roots roots' : List ScopeId} {q q₁ s s' t t' u : Engine × μ} {e e' f f' F start : Engine}
  {base d : Nat} {units : UnitTable} {T : ScopeId → ScopeId → Prop} {order : List Nat}

/-! ### Texts -/

/-- **Both scopes have the same text,** wherever the engine has come to. -/
theorem Engine.Encore.render {a : Ambient}
    (h : Encore T a.units root root' roots roots' e e' f f') (hF : Endures f' F)
    (ho : Orderly [] F) (huniform : F.catalog.Uniform) :
    (F.render root' a).1 = (F.render root a).1 := by
  have hstart : Endures e F := (Endures.processed h.sequel.orderly.sound h.processed).trans
    (h.endures.trans hF)
  have hend : Endures f F := (Endures.processed h.sequel.orderly'.sound h.processed').trans hF
  have hle : mates T a.units e f ≤ pairing (Mates T e) F F a.units :=
    pairing_mono id hstart.anchors hend.anchors
  have hexact : (mates T a.units e f).Exact := h.rehearses.exact h.sequel
  have halike : AlikeScopes (pairing (Mates T e) F F a.units) F F :=
    alikeScopes_of_pairing hexact.scopes
      ho.vacant.toIndexed ho.vacant.toIndexed rfl huniform rfl
      (fun hkj => by
        obtain ⟨s, t, hs, ht, -, -, hst⟩ := h.echoes hF hkj
        exact ⟨s, t, hs, ht, hst.rules.imp fun _ _ hr =>
          (⟨hr.alike, hr.merged⟩ : Rule.Resembles _ _ _).mono hle⟩)
      (h.cells_agree hF ho.labelled)
  exact (halike.render (.inl h.rehearses.roots) ⟨rfl, rfl, fun _ _ => rfl⟩).symm

/-! ### What is declared -/

/-- There is no other way to proceed. -/
theorem Proceeds.unique {task : Task μ} (h : Proceeds library task s t)
    (h' : Proceeds library task s t') : t = t' := by
  obtain ⟨limit, hends⟩ := h.ends
  obtain ⟨limit', hends'⟩ := h'.ends
  have hends := hends.mono (le_max_left limit limit')
  have hends' := hends'.mono (le_max_right limit limit')
  cases task with
  | declare script b => exact congrArg Prod.snd (Option.some.inj (hends.symm.trans hends'))
  | reach definition id => exact congrArg Prod.snd (Option.some.inj (hends.symm.trans hends'))

/-- **A definition extends another one:** it has opened its scope, and has reached the other one,
    whose script is about to run. -/
structure Extension (library : Library μ) (keys line : Nat → Prop) (start : Engine)
    (units : UnitTable) (d base : Nat) (k : ScopeId) (roots : List ScopeId) (q u t : Engine × μ) :
    Prop where
  circle : Circle library keys
  lineage : Lineage library keys line
  key : keys d
  based : line base
  script : ∃ next, (library d).script = .extend base next ∧ ∀ id, next (.ok id) = .done
  orderly : Orderly roots q.1
  unknown : q.1.scopeOf? (library d).key = none
  mentions : Mentions units q.1.Settles q.1.Settles q.1
  recorded : Recorded library keys start units q.1
  reached : Proceeds library (.reach base k) (opened (library d) q.1, q.2) u
  set : Script.setBase ⟨q.1.nextScope, 0⟩ k u = some (.ok (), t)

namespace Extension

variable (h : Extension library keys line start units d base k roots' q u t)
include h

/-- The script of the other one stands in the new scope, which extends the other scope. -/
theorem stands : Endures u.1 t.1 ∧
    Stage keys q.1.nextScope roots' (library base).script ⟨q.1.nextScope, 1⟩ t.1 ∧
      ∃ v, t.1.scope? q.1.nextScope = some v ∧ v.base = some k ∧
        v.rules = [] ∧ v.named = [] ∧ v.order = [] ∧ v.owner = none ∧ v.children = [] := by
  obtain ⟨next, hscript, -⟩ := h.script
  have hstage := (h.orderly.opened h.circle h.key h.unknown).1
  rw [hscript] at hstage
  have hreach := h.reached.secluded h.circle hstage.stays.1 hstage.orderly
  have hready := (h.reached.reach_sound hstage.orderly.sound).2.2
  obtain ⟨-, -, hbase⟩ := hstage.extension h.circle hreach hready h.set
  have hset := h.set
  unfold Script.setBase at hset
  rw [if_pos rfl] at hset
  cases hset
  have hroot := hreach.scope (scope?_opened (library d) q.1 q.1.nextScope |>.trans (if_pos rfl))
  exact ⟨(Declares.setBase hreach.orderly (hreach.grows.extended.inside hstage.inside) hready
    h.set).grows.endures, hbase, _, scope?_modifyScope_self _ hroot, rfl, rfl, rfl, rfl, rfl, rfl⟩

/-- **It declares what the other one has declared,** and both are processed one after the other. -/
theorem encore : ∃ T t₁ roots e e',
    Proceeds library (.declare (library base).script ⟨q.1.nextScope, 1⟩) t t₁ ∧
      Declares q.1.nextScope roots' t.1 t₁.1 ∧
      ∀ {f'}, processScope q.1.nextScope t₁.1.endConstruction = (.ok (), f') →
        Encore T units k q.1.nextScope roots roots' e e' t₁.1.endConstruction f' := by
  obtain ⟨hend, hstage, v, hv, hbase, hempty⟩ := h.stands
  have hkey := h.lineage.keys h.based
  have hopened := Circumspect.opened h.circle h.key h.orderly h.unknown h.mentions
  have hgrows := (h.orderly.opened h.circle h.key h.unknown).2
  -- The other definition got its scope some time ago, or does so now.
  have hadds : Task.Adds library keys start units (opened (library d) q.1, q.2) u
    (.reach base k) := h.reached.adds h.circle
  have hrecorded := (hadds hkey hopened.orderly hopened.discreet.settled).2.recorded
    (h.recorded.opened hgrows)
  have hready := (h.reached.reach_sound hopened.orderly.sound).2.2
  obtain @⟨_, _, _, roots, p, p₁, e', harrived, -⟩ := hrecorded.scope
    (h.reached.entry h.circle hkey (h.lineage.single h.based) hopened.orderly) hready.settles
  obtain rfl := harrived.id
  have hfirst := Circumspect.opened h.circle hkey harrived.orderly harrived.unknown
    harrived.mentions
  have hroot := scope?_opened (library base) p.1 p.1.nextScope |>.trans (if_pos rfl)
  have hlater : Endures e' t.1 := harrived.since.trans hend
  have hstart : Rehearses (fun i j => i = p.1.nextScope ∧ j = q.1.nextScope) units p.1.nextScope
      q.1.nextScope (opened (library base) p.1) t.1 :=
    .start hroot hv ⟨rfl, rfl, rfl, rfl, rfl⟩ hempty hbase
  have hbetween := (harrived.endures h.circle).trans hlater
  have hq : Sequel p.1.nextScope q.1.nextScope roots roots' (opened (library base) p.1) t.1 :=
    ⟨hfirst.orderly, hstage.orderly, (harrived.declares h.circle).grows.endures.trans hbetween⟩
  have hR : Rerun library keys line units _ p.1.nextScope q.1.nextScope roots roots'
      (library base).script ⟨p.1.nextScope, 0⟩ (opened (library base) p.1, p.2) p₁
      (library base).script ⟨q.1.nextScope, 1⟩ t :=
    { stage := hfirst
      again := hstage
      proceeds := harrived.declared
      endures := hbetween
      rehearses := hstart
      scope := ⟨rfl, rfl⟩
      depth := fun _ => Nat.one_pos
      alike := h.circle.uniform hkey _ (hstart.exact hq) fun _ => trivial
      repeats := h.lineage.repeats h.based }
  obtain ⟨T, t₁, hrun, -, hreh⟩ := harrived.declared.repeated h.circle h.lineage hR
  have hd := hrun.secluded h.circle hstage
  have hends := hd.grows.endures.trans (Endures.endConstruction t₁.1)
  refine ⟨T, t₁, roots, p₁.1.endConstruction, e', hrun, hd, fun hproc => ?_⟩
  exact
    { rehearses := hreh.aside rfl rfl (.endConstruction _) (.endConstruction _)
      sequel := ⟨(harrived.declares h.circle).orderly.endConstruction, hd.orderly.endConstruction,
        (harrived.process h.circle).trans (hlater.trans hends)⟩
      mentions := (harrived.declared.discreet h.circle hfirst).endConstruction.settled
      processed := harrived.processed
      between := hlater.trans hends
      processed' := hproc }

/-- **That is all that it declares.** -/
theorem declares {t₁ : Engine × μ}
    (hrun : Proceeds library (.declare (library base).script ⟨q.1.nextScope, 1⟩) t t₁) :
    Proceeds library (.declare (library d).script ⟨q.1.nextScope, 0⟩)
      (opened (library d) q.1, q.2) t₁ := by
  obtain ⟨next, hscript, hdone⟩ := h.script
  rw [hscript]
  refine .extend h.reached h.set hrun ?_
  rw [hdone]
  exact .done

/-- So it has its scope, which is processed. -/
theorem ends : ∃ t₁ f', Proceeds library (.declare (library d).script ⟨q.1.nextScope, 0⟩)
    (opened (library d) q.1, q.2) t₁ ∧
      processScope q.1.nextScope t₁.1.endConstruction = (.ok (), f') := by
  obtain ⟨_, t₁, _, _, _, hrun, hd, -⟩ := h.encore
  have ho := hd.orderly.endConstruction
  have hproc := processScope_succeeds ho.sound ho.vacant ho.layered
  exact ⟨t₁, _, h.declares hrun, Prod.ext hproc rfl⟩

section Processed

variable (hdeclared : Proceeds library (.declare (library d).script ⟨q.1.nextScope, 0⟩)
    (opened (library d) q.1, q.2) q₁)
  (hproc : processScope q.1.nextScope q₁.1.endConstruction = (.ok (), f'))
include hdeclared hproc

/-- The other definition has its scope then. -/
theorem entry : f'.scopeOf? base = some k := by
  obtain ⟨_, t₁, _, _, _, hrun, hd, -⟩ := h.encore
  obtain rfl := (h.declares hrun).unique hdeclared
  have hkey := h.lineage.keys h.based
  have hopened := (h.orderly.opened h.circle h.key h.unknown).1.orderly
  refine (Endures.processed hd.orderly.endConstruction.sound hproc).entries ?_
  exact hd.grows.entries (h.stands.1.entries
    (h.reached.entry h.circle hkey (h.lineage.single h.based) hopened))

omit h in
/-- **Both have the same text,** wherever the engine has come to. -/
theorem render {a : Ambient}
    (h : Extension library keys line start a.units d base k roots' q u t) (hF : Endures f' F)
    (ho : Orderly [] F) (huniform : F.catalog.Uniform) :
    (F.render q.1.nextScope a).1 = (F.render k a).1 := by
  obtain ⟨T, t₁, roots, e, e', hrun, -, hencore⟩ := h.encore
  obtain rfl := (h.declares hrun).unique hdeclared
  exact (hencore hproc).render hF ho huniform

end Processed

end Extension

/-- What proceeds is an answer of a program. -/
theorem Proceeds.process {id : ScopeId} (h : Proceeds library (.reach d id) s s') :
    ∃ limit, process library limit d s = some (.ok id, s') := by
  obtain ⟨limit, hends⟩ := h.ends
  cases limit with
  | zero => cases hends
  | succ limit => exact ⟨limit, hends⟩

/-! ### Definitions -/

section Texts

variable {naming : NamingConfig} {catalog : Catalog} {supports : String → Bool} {ambient : Ambient}
  {memory : μ}

/-- **A definition that only extends another one has the text of that one.** Where definitions are
    processed of which none fails, one has its scope that says the same once more: neither it nor
    those that it extends use definitions that get a scope every time, or declare clones of rules.
    Then a definition that extends it, and does nothing else, gets its scope or has it, and both
    have the same text, or the same error. -/
theorem Ordered.extension_agrees (hcircle : Circle library keys)
    (hline : Lineage library keys line) (hcatalog : catalog.Uniform)
    (h : Ordered library keys (blank naming catalog supports ambient, memory) order s)
    (hbase : line base) (hk : s.1.scopeOf? base = some k) (hd : keys d)
    {next : Except Error ScopeId → Script μ} (hscript : (library d).script = .extend base next)
    (hnext : ∀ id, next (.ok id) = .done) :
    ∃ limit j s', process library limit d s = some (.ok j, s') ∧ s'.1.scopeOf? base = some k ∧
      ∀ a, (s'.1.render j a).1 = (s'.1.render k a).1 := by
  have hrests := h.rests hcircle rests_blank
  have ho := hrests.orderly
  have hrecorded : ∀ units, Mentions units s.1.Settles s.1.Settles s.1 ∧
      Recorded library keys _ units s.1 := fun _ => h.recorded hcircle rests_blank settles_blank
  have huniform : s.1.catalog.Uniform := by
    rw [(h.grows hcircle rests_blank).evolves.ages.catalog]
    exact hcatalog
  have hends : ∀ {c i}, s.1.scopeOf? c = some i → s.1.Ready i := fun hc => by
    obtain ⟨v, hv, howner⟩ := ho.sound.linked.singleton_live hc
    exact ⟨v, hv, ho.sound.settled hv, howner⟩
  cases hentry : s.1.scopeOf? d with
  | none =>
    -- The definition gets its scope now.
    have hunknown : s.1.scopeOf? (library d).key = none := (hcircle.key hd).symm ▸ hentry
    have hopened := (ho.opened hcircle hd hunknown).2
    have hknown : Proceeds library (.reach base k) (opened (library d) s.1, s.2)
        (opened (library d) s.1, s.2) :=
      .known ((hcircle.key (hline.keys hbase)).symm ▸ hopened.entries hk)
        (hopened.endures.ready (hends hk)).settles
    obtain ⟨t, hset⟩ :=
      Script.setBase_succeeds ⟨s.1.nextScope, 0⟩ k (opened (library d) s.1, s.2)
    have hext : ∀ units, Extension library keys line _ units d base k [] s _ t := fun units =>
      ⟨hcircle, hline, hd, hbase, ⟨next, hscript, hnext⟩, ho, hunknown, (hrecorded units).1,
        (hrecorded units).2, hknown, hset⟩
    obtain ⟨q₁, f', hdeclared, hproc⟩ := (hext []).ends
    have hreach : Proceeds library (.reach d s.1.nextScope) s (f', q₁.2) :=
      .new hunknown (by rw [hrests.idle]; exact List.not_mem_nil) hdeclared hproc
    have hleaves := hreach.secluded hcircle hd ho
    obtain ⟨limit, hlimit⟩ := hreach.process
    refine ⟨limit, s.1.nextScope, (f', q₁.2), hlimit, hleaves.grows.entries hk, fun a => ?_⟩
    exact (hext a.units).render hdeclared hproc (refl_of Grows f').endures hleaves.orderly
      (hleaves.grows.evolves.ages.catalog ▸ huniform)
  | some j =>
    -- The definition has its scope, which tells how it came about.
    have hreach : Proceeds library (.reach d j) s s :=
      .known ((hcircle.key hd).symm ▸ hentry) (hends hentry).settles
    obtain ⟨limit, hlimit⟩ := hreach.process
    refine ⟨limit, j, s, hlimit, hk, fun a => ?_⟩
    obtain @⟨_, _, _, roots, q, q₁, e', harrived, hbefore⟩ :=
      (hrecorded a.units).2.scope hentry (hends hentry).settles
    obtain rfl := harrived.id
    have hdeclared := harrived.declared
    rw [hscript] at hdeclared
    cases hdeclared with
    | @extend _ _ _ i _ u t q₂ _ reached hset extended rest =>
      have hext : Extension library keys line _ a.units d base i roots q u t :=
        ⟨hcircle, hline, hd, hbase, ⟨next, hscript, hnext⟩, harrived.orderly, harrived.unknown,
          harrived.mentions, ⟨harrived.ages, fun {c i} => hbefore c i⟩, reached, hset⟩
      have hi := harrived.since.entries (hext.entry harrived.declared harrived.processed)
      cases hk.symm.trans hi
      exact hext.render harrived.declared harrived.processed harrived.since ho huniform

end Texts

/-! ### A sample -/

/-- The library with one more definition, which only extends one that extends another one, uses a
    third one and declares a group. -/
def extendedLibrary : Library Unit
  | 3 => ⟨3, "Copy", "copy", false, .extend 2 fun
      | .error err => .fail err
      | .ok _ => .done⟩
  | key => sharedLibrary key

/-- Its scripts give up when calls fail. -/
theorem extendedLibrary_givesUp : ∀ d, (extendedLibrary d).script.GivesUp
  | 0 | 1 | 2 | _ + 4 => sharedLibrary_givesUp _
  | 3 => ⟨fun err => ⟨err, rfl⟩, fun _ => trivial⟩

/-- Its definitions reach each other only. -/
theorem extendedLibrary_circle : Circle extendedLibrary (· < 4) where
  key {d} hd := by interval_cases d <;> rfl
  uniform {d} hd := by
    interval_cases d
    · exact sharedLibrary_uniform 0
    · exact sharedLibrary_uniform 1
    · exact sharedLibrary_uniform 2
    · exact fun _ _ _ => .extend fun _ _ _ _ _ => .done
  stays {d} hd := by
    interval_cases d
    · exact fun _ => trivial
    · exact ⟨by decide, fun _ _ => trivial⟩
    · exact ⟨by decide, fun _ => ⟨by decide, fun _ => ⟨fun _ => trivial, fun _ => trivial⟩⟩⟩
    · exact ⟨by decide, fun _ => trivial⟩

/-- Those that are extended say the same once more. -/
theorem extendedLibrary_lineage : Lineage extendedLibrary (· < 4) (· ∈ [0, 2]) where
  keys {d} hd := by
    simp only [List.mem_cons, List.not_mem_nil, or_false] at hd
    rcases hd with rfl | rfl <;> decide
  single {d} hd := by
    simp only [List.mem_cons, List.not_mem_nil, or_false] at hd
    rcases hd with rfl | rfl <;> rfl
  repeats {d} hd := by
    simp only [List.mem_cons, List.not_mem_nil, or_false] at hd
    rcases hd with rfl | rfl
    · exact fun _ => trivial
    · exact ⟨by decide, fun _ => ⟨rfl, fun _ => ⟨fun _ => trivial, fun _ => trivial⟩⟩⟩

/-- The definition gets a scope with the text of the one that it extends. -/
theorem extension_agrees_of_copy : ∃ s : Engine × Unit,
    Ordered extendedLibrary (· < 4) (blank {} .standard (fun _ => true) .initial, ()) [2] s ∧
      s.1.scopeOf? 2 = some 1 ∧
      ∃ limit j s', process extendedLibrary limit 3 s = some (.ok j, s') ∧
        s'.1.scopeOf? 2 = some 1 ∧ ∀ a, (s'.1.render j a).1 = (s'.1.render 1 a).1 := by
  let start : Engine × Unit := (blank {} .standard (fun _ => true) .initial, ())
  have hout : (processAll extendedLibrary 4 [2] start).any fun s =>
      s.1.scopeOf? 2 = some 1 := by decide +kernel
  obtain ⟨s, hall, hk⟩ := (Option.any_eq_true _ _).mp hout
  rw [decide_eq_true_eq] at hk
  have hnone : Ordered extendedLibrary (· < 4) start [] start := .start
  have hordered := hnone.of_processAll extendedLibrary_givesUp (by decide) hall
  exact ⟨s, hordered, hk, Ordered.extension_agrees extendedLibrary_circle extendedLibrary_lineage
    Catalog.standard_uniform hordered (by decide) hk (by decide) rfl fun _ => rfl⟩

end StyleBook
