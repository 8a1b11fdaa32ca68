import StyleBook.Proofs.Order.Arrivals
import StyleBook.Proofs.Order.SideBySide

namespace StyleBook

/-!
# Definitions in lockstep

Wherever a definition gets its scope, its script gets alike answers: what it extends and uses was
reached before, or is reached now, and matches what was reached elsewhere. So scopes of one
definition match in all engines where the same definitions have scopes.

* `Course` — a script proceeds, on the way to an engine;
* `Birth` — a definition gets a scope, on the way to an engine;
* `Birth.matched` — if the scripts of two births match, so do the scopes;
* `Proceeds.lockstep` — scripts that proceed side by side match, and so does what is reached.
-/

open Engine

variable {μ : Type} {library : Library μ} {keys : Nat → Prop} {F G : Engine} {root root' : ScopeId}
  {roots roots' : List ScopeId} {script script' : Script μ} {b b' : Builder}
  {s s' s₁ s₂ s₃ t t' t₁ : Engine × μ}
  {e' f' : Engine} {definition : Nat} {units : UnitTable}

/-- **A script proceeds on the way to an engine,** and no number is taken. -/
structure Course (library : Library μ) (keys : Nat → Prop) (F : Engine) (root : ScopeId)
    (roots : List ScopeId) (script : Script μ) (b : Builder) (s s' : Engine × μ) : Prop where
  stage : Stage keys root roots script b s.1
  proceeds : Proceeds library (.declare script b) s s'
  endures : Endures s'.1 F
  steady : Steady s.1 F

namespace Course

theorem start (hfamily : Family library keys) (h : Course library keys F root roots script b s s') :
    Endures s.1 F := (h.proceeds.secluded hfamily.toCircle h.stage).grows.endures.trans h.endures

/-- What comes after a step, or a part of that. -/
theorem part (hfamily : Family library keys) (h : Course library keys F root roots script b s s')
    (hproceeds : Proceeds library (.declare script' b') s₁ s₂) (hd : Declares root roots s.1 s₁.1)
    (hstage : Stage keys root roots script' b' s₁.1) (hend : Endures s₂.1 F) :
    Course library keys F root roots script' b' s₁ s₂ where
  stage := hstage
  proceeds := hproceeds
  endures := hend
  steady := h.steady.second hd.grows.evolves.ages
    ((hproceeds.secluded hfamily.toCircle hstage).grows.endures.trans hend).ages

/-- What comes after a step. -/
theorem next (hfamily : Family library keys) (h : Course library keys F root roots script b s s')
    (rest : Proceeds library (.declare script' b') s₁ s') (hd : Declares root roots s.1 s₁.1)
    (hstage : Stage keys root roots script' b' s₁.1) :
    Course library keys F root roots script' b' s₁ s' := h.part hfamily rest hd hstage h.endures

/-- Two scripts stand side by side. -/
theorem pair (hfamily : Family library keys) (hF : Linked F) (hG : Linked G)
    (h : Course library keys F root roots script b s s')
    (h' : Course library keys G root' roots' script' b' t t') (htwin : Twin F G root root') :
    Courses F G root root' roots roots' s.1 t.1 :=
  ⟨hF, hG, htwin, h.stage.orderly, h'.stage.orderly, h.start hfamily, h'.start hfamily⟩

/-- **A definition is reached and extended.** -/
theorem extension (hfamily : Family library keys) {next : Except Error ScopeId → Script μ}
    {base : ScopeId}
    (h : Course library keys F root roots (.extend definition next) b s s')
    (reached : Proceeds library (.reach definition base) s s₁)
    (hbase : Script.setBase b base s₁ = some (.ok (), s₂))
    (extended : Proceeds library
      (.declare (library definition).script { b with depth := b.depth + 1 }) s₂ s₃)
    (rest : Proceeds library (.declare (next (.ok base)) b) s₃ s') :
    F.scopeOf? definition = some base ∧ Leaves (root :: roots) s.1 s₁.1 ∧ Endures s₁.1 F ∧
      Course library keys F root roots (library definition).script
      { b with depth := b.depth + 1 } s₂ s₃ ∧
      Course library keys F root roots (next (.ok base)) b s₃ s' ∧ Endures s.1 s₃.1 ∧
      s₃.1.Settles base := by
  have hl := h.stage.orderly.sound.linked
  have hready := (reached.reach_sound h.stage.orderly.sound).2.2
  -- Three stretches, each of which leaves what is outside: reaching, linking and declaring the
  -- base's part.
  have hreach := reached.secluded hfamily.toCircle h.stage.stays.1 h.stage.orderly
  obtain ⟨hd₂, hbase₂, h₂⟩ := h.stage.extension hfamily.toCircle hreach hready hbase
  have hd₃ := extended.secluded hfamily.toCircle h₂
  have hd := hd₂.trans hd₃ hl
  have hbase₃ := hd₃.grows.extended.settles hbase₂
  have hrest := h.next hfamily rest hd (h.stage.extend hd hbase₃)
  have hscript := h.part hfamily extended hd₂ h₂ (hrest.start hfamily)
  have hset := Declares.setBase hreach.orderly
    (hreach.grows.extended.inside h.stage.inside) hready hbase
  have hend := hset.grows.endures.trans (hscript.start hfamily)
  exact ⟨hend.entries (reached.entry hfamily.toCircle h.stage.stays.1
    (hfamily.single h.stage.stays.1) h.stage.orderly), hreach,
    hend, hscript, hrest,
    hd.grows.endures, hbase₃⟩

/-- **A definition is reached and used.** -/
theorem usage (hfamily : Family library keys) {next : Except Error ScopeRefs → Script μ}
    {used : ScopeId}
    {refs : ScopeRefs} {e e₁ : Engine} {m m₁ : μ}
    (h : Course library keys F root roots (.use definition next) b (e, m) s')
    (reached : Proceeds library (.reach definition used) (e, m) (e₁, m₁))
    (hrefs : (collectRefs used (e₁.addReference b.scope used)).1 = .ok refs)
    (rest : Proceeds library (.declare (next (.ok refs)) b) (e₁.addReference b.scope used, m₁) s') :
    F.scopeOf? definition = some used ∧ Leaves (root :: roots) e e₁ ∧ Endures e₁ F ∧
      Course library keys F root roots (next (.ok refs)) b (e₁.addReference b.scope used, m₁) s' ∧
      Endures e (e₁.addReference b.scope used) ∧ (e₁.addReference b.scope used).Settles used := by
  have hready := (reached.reach_sound h.stage.orderly.sound).2.2
  have hreach := reached.secluded hfamily.toCircle h.stage.stays.1 h.stage.orderly
  -- The link to the used scope is all that is new after it was reached.
  obtain ⟨hd, hused⟩ := h.stage.usage hreach hready
  have hrest := h.next hfamily rest hd (h.stage.use hd hused hrefs)
  have href := Declares.addReference hreach.orderly
    (hreach.grows.extended.inside h.stage.inside) hready
  have hend := href.grows.endures.trans (hrest.start hfamily)
  exact ⟨hend.entries (reached.entry hfamily.toCircle h.stage.stays.1
    (hfamily.single h.stage.stays.1) h.stage.orderly), hreach, hend, hrest,
    hd.grows.endures, hused⟩

/-- **A group is declared.** -/
theorem grouping (hfamily : Family library keys) {condition : GroupCondition} {body : Script μ}
    {next : Except Error RuleRef → Script μ} {child : ScopeId} {r : RuleRef} {e e₁ e₂ e₃ : Engine}
    {m m₂ : μ} (h : Course library keys F root roots (.group condition body next) b (e, m) s')
    (hchild : addNested b.scope e = (.ok child, e₁))
    (grouped : Proceeds library (.declare body ⟨child, 0⟩) (e₁, m) (e₂, m₂))
    (hrule : addUnnamedRule b.scope (.ofContent (.group condition child)) e₂ = (.ok r, e₃))
    (rest : Proceeds library (.declare (next (.ok r)) b) (e₃, m₂) s') :
    Declares root roots e e₁ ∧ Course library keys F root roots body ⟨child, 0⟩ (e₁, m) (e₂, m₂) ∧
      Declares root roots e e₂ ∧ Declares root roots e e₃ ∧ Endures e₂ F ∧
      Course library keys F root roots (next (.ok r)) b (e₃, m₂) s' := by
  obtain ⟨hd₁, hbody⟩ := h.stage.groupBody hchild
  have hd₂ := hd₁.trans (grouped.secluded hfamily.toCircle hbody) h.stage.orderly.sound.linked
  obtain ⟨hd₃, h₃⟩ := h.stage.group hd₂ hrule
  have hrest := h.next hfamily rest hd₃ h₃
  have hlast := Declares.addUnnamedRule hd₂.orderly (hd₂.grows.extended.inside h.stage.inside)
    (fun _ hbody => by cases hbody) hrule
  have hend := hlast.grows.endures.trans (hrest.start hfamily)
  exact ⟨hd₁, h.part hfamily grouped hd₁ hbody hend, hd₂, hd₃, hend, hrest⟩

end Course

/-! ### Births -/

/-- **A definition gets a scope on the way to an engine,** and no number is taken. -/
structure Birth (library : Library μ) (keys : Nat → Prop) (F : Engine) (definition : Nat)
    (roots : List ScopeId) (s s₁ : Engine × μ) (e' : Engine) : Prop
    extends Arrival library keys definition roots s s₁ e' where
  endures : Endures e' F
  steady : Steady s.1 F

namespace Engine

/-- The definitions that declared last have done so. -/
theorem Abreast.endConstruction {e f : Engine} (h : Abreast F G units root root' e f) :
    Abreast F G units root root' e.endConstruction f.endConstruction where
  settled := h.settled
  drafts hkj hk hj :=
    h.drafts hkj (hk.of_owner fun hs => ⟨_, hs, rfl⟩) (hj.of_owner fun hs => ⟨_, hs, rfl⟩)

end Engine

namespace Birth

variable (hfamily : Family library keys) (h : Birth library keys F definition roots s s₁ e')
include hfamily h

/-- **The script of the definition proceeds.** -/
theorem course : Course library keys F s.1.nextScope roots (library definition).script
    ⟨s.1.nextScope, 0⟩ (opened (library definition) s.1, s.2) s₁ := by
  have hend : Endures s₁.1 F :=
    (Endures.endConstruction s₁.1).trans ((h.process hfamily.toCircle).trans h.endures)
  exact
    { stage := h.stage hfamily.toCircle
      proceeds := h.declared
      endures := hend
      steady := h.steady.second (.opened (library definition) s.1)
        ((h.declares hfamily.toCircle).grows.endures.trans hend).ages }

/-- The definition has the scope in the end. -/
theorem entry : F.scopeOf? definition = some s.1.nextScope :=
  h.endures.entries (h.toArrival.entry hfamily.toCircle (hfamily.single h.key))

/-- No number is taken while its scope is processed. -/
theorem quiet : Steady s₁.1.endConstruction e' := by
  have hc := h.course hfamily
  have hages := (h.process hfamily.toCircle).ages
  have hsteady := hc.steady.second (h.declares hfamily.toCircle).grows.evolves.ages hc.endures.ages
  exact (hsteady.second (Endures.endConstruction s₁.1).ages
    (trans_of Ages hages h.endures.ages)).first
    hages h.endures.ages

/-- **If the scripts of two births match, so do the scopes** that are processed then. -/
theorem matched (hF : Linked F) (hG : Linked G)
    (h' : Birth library keys G definition roots' t t₁ f')
    (hmatched : ∀ {k j}, Twin F G k j → s.1.Settles k → Matched F G units k j)
    (hscripts : Abreast F G units s.1.nextScope t.1.nextScope (opened (library definition) s.1)
      (opened (library definition) t.1) →
        Abreast F G units s.1.nextScope t.1.nextScope s₁.1 t₁.1) {k j : ScopeId}
    (htwin : Twin F G k j) (hk : e'.Settles k) : Matched F G units k j := by
  -- The two births have the key of one definition, so their scopes are twins from the start.
  have hroots : Twin F G s.1.nextScope t.1.nextScope := .entry (h.entry hfamily) (h'.entry hfamily)
  have hopened : Ages s.1 (opened (library definition) s.1) := .opened _ _
  have hopened' : Ages t.1 (opened (library definition) t.1) := .opened _ _
  have habreast := hscripts <| .opened hF hmatched hroots h.orderly.sound
    (h.steady.first hopened ((h.course hfamily).start hfamily).ages)
    (h'.steady.first hopened' ((h'.course hfamily).start hfamily).ages)
  -- Both scripts are over and both scopes are about to be processed.
  have hc : Courses F G s.1.nextScope t.1.nextScope roots roots' s₁.1.endConstruction
      t₁.1.endConstruction :=
    ⟨hF, hG, hroots, (h.declares hfamily.toCircle).orderly.endConstruction,
      (h'.declares hfamily.toCircle).orderly.endConstruction,
      (h.process hfamily.toCircle).trans h.endures,
      (h'.process hfamily.toCircle).trans h'.endures⟩
  exact habreast.endConstruction.processed hc h.processed h'.processed
    h'.leaves.orderly.sound.linked
    h.leaves.orderly.vacant.toIndexed h'.leaves.orderly.vacant.toIndexed h.endures h'.endures
    (h.quiet hfamily) (h'.quiet hfamily) htwin hk

end Birth

/-! ### Side by side -/

/-- What becomes of two scripts that proceed side by side, and of what is reached. -/
def Task.Lockstep (library : Library μ) (keys : Nat → Prop) (F G : Engine) (units : UnitTable)
    (s s' : Engine × μ) : Task μ → Prop
  | .declare script b => ∀ {root roots root' roots' script' b' t t'},
    Course library keys F root roots script b s s' →
    Course library keys G root' roots' script' b' t t' → Twin F G root root' →
    Twin F G b.scope b'.scope → b.depth = b'.depth →
    script.Alike (shared F G units root root' s.1 t.1) script' →
    Abreast F G units root root' s.1 t.1 → Abreast F G units root root' s'.1 t'.1
  | .reach definition _ => ∀ {roots}, keys definition → Orderly roots s.1 → Endures s'.1 F →
    Steady s.1 F → (∀ {k j}, Twin F G k j → s.1.Settles k → Matched F G units k j) →
    ∀ {k j}, Twin F G k j → s'.1.Settles k → Matched F G units k j

/-- **Scripts that proceed side by side match, and so does what is reached.** -/
theorem Proceeds.lockstep (hfamily : Family library keys) (hF : Linked F) (hG : Linked G)
    (hbirths : ∀ {d}, keys d → ∃ roots t t₁ f', Birth library keys G d roots t t₁ f')
    {task : Task μ} (h : Proceeds library task s s') :
    task.Lockstep library keys F G units s s' := by
  induction h with
  | done =>
    intro root roots root' roots' script' b' t t' hA hB hroots htwin hdepth halike habreast
    cases halike
    cases hB.proceeds
    exact habreast
  | add hadd rest ih =>
    intro root roots root' roots' script' b' t t' hA hB hroots htwin hdepth halike habreast
    have hc := hA.pair hfamily hF hG hB hroots
    cases halike with
    | add hrule hnext =>
      cases hB.proceeds with
      | add hadd' rest' =>
        obtain ⟨hd, h₁⟩ := hA.stage.add hadd
        obtain ⟨hd', h₁'⟩ := hB.stage.add hadd'
        have hA₁ := hA.next hfamily rest hd h₁
        have hB₁ := hB.next hfamily rest' hd' h₁'
        obtain ⟨habreast₁, hr⟩ := habreast.addRule hc htwin hA.stage.inside hB.stage.inside
          (hrule.mono (shared_le_twins hc.endures hc.endures')) hadd hadd'
          hd.orderly.vacant.toIndexed
          hd'.orderly.vacant.toIndexed
        exact ih hA₁ hB₁ hroots htwin hdepth (hnext (shared_mono hd.grows.endures hd'.grows.endures)
          (hA₁.pair hfamily hF hG hB₁ hroots).exact hr) habreast₁
  | addUnnamed hadd rest ih =>
    intro root roots root' roots' script' b' t t' hA hB hroots htwin hdepth halike habreast
    have hc := hA.pair hfamily hF hG hB hroots
    cases halike with
    | addUnnamed hrule hnext =>
      cases hB.proceeds with
      | addUnnamed hadd' rest' =>
        obtain ⟨hd, h₁⟩ := hA.stage.addUnnamed hadd
        obtain ⟨hd', h₁'⟩ := hB.stage.addUnnamed hadd'
        have hA₁ := hA.next hfamily rest hd h₁
        have hB₁ := hB.next hfamily rest' hd' h₁'
        obtain ⟨habreast₁, hr⟩ := habreast.addUnnamedRule hc htwin hA.stage.inside hB.stage.inside
          (hrule.mono (shared_le_twins hc.endures hc.endures')) hadd hadd'
          hd.orderly.vacant.toIndexed
          hd'.orderly.vacant.toIndexed
        exact ih hA₁ hB₁ hroots htwin hdepth (hnext (shared_mono hd.grows.endures hd'.grows.endures)
          (hA₁.pair hfamily hF hG hB₁ hroots).exact hr) habreast₁
  | @find slot next b s s' rest ih =>
    intro root roots root' roots' script' b' t t' hA hB hroots htwin hdepth halike habreast
    have hc := hA.pair hfamily hF hG hB hroots
    cases halike with
    | find hnext =>
      cases hB.proceeds with
      | find rest' =>
        have hr := habreast.findRule hc ⟨htwin, .inl hA.stage.inside, .inl hB.stage.inside⟩ slot
        exact ih (hA.next hfamily rest (.refl hA.stage.orderly) hA.stage.find)
          (hB.next hfamily rest' (.refl hB.stage.orderly) hB.stage.find) hroots htwin hdepth
          (hnext hr) habreast
  | scope rest ih =>
    intro root roots root' roots' script' b' t t' hA hB hroots htwin hdepth halike habreast
    cases halike with
    | scope hnext =>
      cases hB.proceeds with
      | scope rest' =>
        exact ih (hA.next hfamily rest (.refl hA.stage.orderly) hA.stage.scope)
          (hB.next hfamily rest' (.refl hB.stage.orderly) hB.stage.scope) hroots htwin hdepth
          (hnext ⟨htwin, .inl hA.stage.inside, .inl hB.stage.inside⟩) habreast
  | @extend definition next b base s s₁ s₂ s₃ s' reached hbase extended rest ihr ihd ih =>
    intro root roots root' roots' script' b' t t' hA hB hroots htwin hdepth halike habreast
    have hc := hA.pair hfamily hF hG hB hroots
    cases halike with
    | extend hnext =>
      cases hB.proceeds with
      | @extend _ _ _ base' _ t₁ t₂ t₃ _ reached' hbase' extended' rest' =>
        obtain ⟨hentry, hl, hend, hA₂, hA₃, hd, hset⟩ :=
          hA.extension hfamily reached hbase extended rest
        obtain ⟨hentry', hl', hend', hB₂, hB₃, hd', hset'⟩ :=
          hB.extension hfamily reached' hbase' extended' rest'
        have hbases : Twin F G base base' := .entry hentry hentry'
        -- What is extended matches what is extended on the other side.
        have habreast₁ := habreast.leaves hc hl hl' fun htwin hk =>
          ihr hA.stage.stays.1 hA.stage.orderly hend hA.steady habreast.settled htwin hk
        have hc₁ : Courses F G root root' roots roots' s₁.1 t₁.1 :=
          ⟨hF, hG, hroots, hl.orderly, hl'.orderly, hend, hend'⟩
        have habreast₂ := habreast₁.setBase_run hc₁ hdepth htwin
          (hl.grows.extended.inside hA.stage.inside)
          (hl'.grows.extended.inside hB.stage.inside) hbases
          hbase hbase'
        have habreast₃ := ihd hA₂ hB₂ hroots htwin (congrArg (· + 1) hdepth)
          (hfamily.uniform hA.stage.stays.1 _ (hA₂.pair hfamily hF hG hB₂ hroots).exact
            fun _ => trivial)
          habreast₂
        exact ih hA₃ hB₃ hroots htwin hdepth (hnext (shared_mono hd hd')
          (hA₃.pair hfamily hF hG hB₃ hroots).exact ⟨hbases, .inr hset, .inr hset'⟩) habreast₃
  | @use definition next b used refs e m e₁ m₁ s' reached hrefs rest ihr ih =>
    intro root roots root' roots' script' b' t t' hA hB hroots htwin hdepth halike habreast
    have hc := hA.pair hfamily hF hG hB hroots
    cases halike with
    | use hnext =>
      cases hB.proceeds with
      | @use _ _ _ used' refs' f m' f₁ m₁' _ reached' hrefs' rest' =>
        obtain ⟨hentry, hl, hend, hA₂, hd, hset⟩ := hA.usage hfamily reached hrefs rest
        obtain ⟨hentry', hl', hend', hB₂, hd', hset'⟩ := hB.usage hfamily reached' hrefs' rest'
        -- What is used matches what is used on the other side.
        have habreast₁ := habreast.leaves hc hl hl' fun htwin hk =>
          ihr hA.stage.stays.1 hA.stage.orderly hend hA.steady habreast.settled htwin hk
        have hc₁ : Courses F G root root' roots roots' e₁ f₁ :=
          ⟨hF, hG, hroots, hl.orderly, hl'.orderly, hend, hend'⟩
        have habreast₂ := habreast₁.addReference hc₁ used used' htwin
          (hl.grows.extended.inside hA.stage.inside) (hl'.grows.extended.inside hB.stage.inside)
        have hc₂ := hA₂.pair hfamily hF hG hB₂ hroots
        have hhandles :=
          habreast₂.collectRefs hc₂ ⟨.entry hentry hentry', .inr hset, .inr hset'⟩ hrefs hrefs'
        exact ih hA₂ hB₂ hroots htwin hdepth
          (hnext (shared_mono hd hd') hc₂.exact hhandles) habreast₂
  | @group condition body next b child r e m e₁ e₂ m₂ e₃ s' hchild grouped hrule rest ihb ih =>
    intro root roots root' roots' script' b' t t' hA hB hroots htwin hdepth halike habreast
    have hc := hA.pair hfamily hF hG hB hroots
    cases halike with
    | group hbody hnext =>
      cases hB.proceeds with
      | @group _ _ _ _ child' r' f m' f₁ f₂ m₂' f₃ _ hchild' grouped' hrule' rest' =>
        obtain ⟨hd₁, hA₁, hd₂, hd₃, hend, hA₃⟩ := hA.grouping hfamily hchild grouped hrule rest
        obtain ⟨hd₁', hB₁, hd₂', hd₃', hend', hB₃⟩ :=
          hB.grouping hfamily hchild' grouped' hrule' rest'
        obtain ⟨habreast₁, hnested⟩ :=
          habreast.addNested hc htwin hA.stage.inside hB.stage.inside hchild
          hchild' hd₁.grows.endures hd₁'.grows.endures (hA₁.start hfamily) (hB₁.start hfamily)
        have habreast₂ := ihb hA₁ hB₁ hroots hnested rfl (hbody (shared_mono hd₁.grows.endures
          hd₁'.grows.endures) (hA₁.pair hfamily hF hG hB₁ hroots).exact) habreast₁
        have hc₂ : Courses F G root root' roots roots' e₂ f₂ :=
          ⟨hF, hG, hroots, hd₂.orderly, hd₂'.orderly, hend, hend'⟩
        have hgroup : (Rule.ofContent (.group condition child)).Alike (twins F G units)
            (.ofContent (.group condition child')) := ⟨.group hnested, rfl, rfl⟩
        obtain ⟨habreast₃, hr⟩ := habreast₂.addUnnamedRule hc₂ htwin
          (hd₂.grows.extended.inside hA.stage.inside) (hd₂'.grows.extended.inside hB.stage.inside)
          hgroup hrule hrule' hd₃.orderly.vacant.toIndexed hd₃'.orderly.vacant.toIndexed
        exact ih hA₃ hB₃ hroots htwin hdepth
          (hnext (shared_mono hd₃.grows.endures hd₃'.grows.endures)
          (hA₃.pair hfamily hF hG hB₃ hroots).exact hr) habreast₃
  | @nameOf cell next b s s' rest ih =>
    intro root roots root' roots' script' b' t t' hA hB hroots htwin hdepth halike habreast
    have hc := hA.pair hfamily hF hG hB hroots
    cases halike with
    | nameOf hcell hnext =>
      cases hB.proceeds with
      | nameOf rest' =>
        rw [← habreast.name? hc hcell] at rest'
        exact ih (hA.next hfamily rest (.refl hA.stage.orderly) (hA.stage.nameOf _))
          (hB.next hfamily rest' (.refl hB.stage.orderly) (hB.stage.nameOf _)) hroots htwin hdepth
          (hnext _) habreast
  | @report event next b e m s' rest ih =>
    intro root roots root' roots' script' b' t t' hA hB hroots htwin hdepth halike habreast
    cases halike with
    | @report _ _ event' _ _ hnext =>
      cases hB.proceeds with
      | @report _ _ _ f m' _ rest' =>
        obtain ⟨hd, h₁⟩ := hA.stage.report
        obtain ⟨hd', h₁'⟩ := hB.stage.report
        have hsame : shared F G units root root' (e.report event) (f.report event') =
            shared F G units root root' e f := shared_report event event'
        exact ih (hA.next hfamily rest hd h₁) (hB.next hfamily rest' hd' h₁') hroots htwin hdepth
          (hsame ▸ hnext) (habreast.report event event')
  | look => exact fun _ _ _ _ _ halike => nomatch halike
  | remember rest ih =>
    intro root roots root' roots' script' b' t t' hA hB hroots htwin hdepth halike habreast
    cases halike with
    | remember hnext =>
      cases hB.proceeds with
      | remember rest' =>
        exact ih (hA.next hfamily rest (.refl hA.stage.orderly) hA.stage.remember)
          (hB.next hfamily rest' (.refl hB.stage.orderly) hB.stage.remember) hroots htwin
          hdepth hnext habreast
  | known => exact fun _ _ _ _ hmatched => hmatched
  | @new definition e m e₁ m₁ e' hnew hkey declared hproc ih =>
    intro roots hkeys ho hend hsteady hmatched k j htwin hk
    obtain ⟨roots', t, t₁, f', hB⟩ := hbirths hkeys
    have hreach : Proceeds library (.reach definition e.nextScope) (e, m) (e', m₁) :=
      .new hnew hkey declared hproc
    have hA : Birth library keys F definition roots (e, m) (e₁, m₁) e' :=
      ⟨⟨hkeys, ho, hnew, declared, hproc, hreach.secluded hfamily.toCircle hkeys ho⟩, hend, hsteady⟩
    have hroots : Twin F G e.nextScope t.1.nextScope := .entry (hA.entry hfamily) (hB.entry hfamily)
    have hA₁ := hA.course hfamily
    have hB₁ := hB.course hfamily
    exact hA.matched hfamily hF hG hB hmatched (fun habreast => ih hA₁ hB₁ hroots hroots rfl
      (hfamily.uniform hkeys _ (hA₁.pair hfamily hF hG hB₁ hroots).exact fun _ => trivial) habreast)
      htwin hk

end StyleBook
