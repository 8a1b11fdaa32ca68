import StyleBook.Proofs.Order.Arrivals
import StyleBook.Proofs.Order.Rehearsals

namespace StyleBook

/-!
# Scripts that are run once more

A definition that extends another one runs its script once more. The other one has its scope then,
and all that its script reached has been processed. So the second run gets alike answers, takes
alike steps, and no call of it fails: what it declares is what the first run has declared.

* `Rerun` — a script has been run, and another one, which is alike, is about to be;
* `Proceeds.repeated` — it proceeds, and declares what the first one has declared;
* `Proceeds.unique` — there is no other way to proceed.
-/

open Engine

variable {μ : Type} {library : Library μ} {keys line : Nat → Prop} {root root' : ScopeId}
  {roots roots' : List ScopeId} {script script' script₁ script₁' : Script μ} {b b' b₁ b₁' : Builder}
  {s s' s₁ s₂ t t' t₁ : Engine × μ} {e e₁ : Engine} {d : Nat} {units : UnitTable}
  {T T₁ : ScopeId → ScopeId → Prop}

/-! ### Steps that succeed -/

namespace Engine

/-- A rule can be declared under a slot wherever there is a scope. -/
theorem addRule_succeeds {u : Scope} (hu : e.scope? root = some u) (slot : String) (rule : Rule) :
    ∃ r e₁, addRule root slot rule e = (.ok r, e₁) := by
  cases hslot : u.named.get? slot with
  | none => exact ⟨_, _, addRule_new hu hslot rule⟩
  | some key => exact ⟨_, _, addRule_known hu hslot rule⟩

/-- A scope that may be extended may be so later. -/
theorem Endures.ready {k : ScopeId} (h : Endures e e₁) (hk : e.Ready k) : e₁.Ready k := by
  obtain ⟨u, hu, hsettled, howner⟩ := hk
  exact ⟨u, h.settled hu hsettled, hsettled, howner⟩

theorem Ready.settles {k : ScopeId} (h : e.Ready k) : e.Settles k := by
  obtain ⟨u, hu, hsettled, -⟩ := h
  exact ⟨u, hu, hsettled⟩

theorem Leaves.refl (h : Orderly roots e) : Leaves roots e e := ⟨h, refl_of Grows e, id⟩

end Engine

theorem Script.setBase_succeeds (b : Builder) (base : ScopeId) (s : Engine × μ) :
    ∃ s', Script.setBase b base s = some (.ok (), s') := by
  unfold Script.setBase
  split
  · exact ⟨_, rfl⟩
  · exact ⟨_, rfl⟩

/-! ### Reruns -/

/-- **A script has been run, and another one is about to be,** which is alike: it stands in a scope
    that extends that of the first one, of which it has declared what the first one had declared. -/
structure Rerun (library : Library μ) (keys line : Nat → Prop) (units : UnitTable)
    (T : ScopeId → ScopeId → Prop) (root root' : ScopeId) (roots roots' : List ScopeId)
    (script : Script μ) (b : Builder) (s s' : Engine × μ) (script' : Script μ) (b' : Builder)
    (t : Engine × μ) : Prop where
  stage : Circumspect keys units root roots script b s.1
  again : Stage keys root' roots' script' b' t.1
  proceeds : Proceeds library (.declare script b) s s'
  endures : Endures s'.1 t.1
  rehearses : Rehearses T units root root' s.1 t.1
  scope : T b.scope b'.scope
  depth : b'.scope = root' → 0 < b'.depth
  alike : script.Alike (mates T units s.1 t.1) script'
  repeats : script.Repeats library line

/-- **The second script proceeds as well,** and declares what the first one has declared. -/
def Repeated (library : Library μ) (units : UnitTable) (T : ScopeId → ScopeId → Prop)
    (root root' : ScopeId) (s' : Engine × μ) (script' : Script μ) (b' : Builder)
    (t : Engine × μ) : Prop :=
  ∃ T' t', Proceeds library (.declare script' b') t t' ∧ T ≤ T' ∧
    Rehearses T' units root root' s'.1 t'.1

/-- So it does if it comes to a script that does. -/
theorem Repeated.before (h : Repeated library units T₁ root root' s' script₁' b₁' t₁)
    (hT : T ≤ T₁) (hproceeds : ∀ {t'}, Proceeds library (.declare script₁' b₁') t₁ t' →
      Proceeds library (.declare script' b') t t') :
    Repeated library units T root root' s' script' b' t := by
  obtain ⟨T', t', hrun, hle, hreh⟩ := h
  exact ⟨T', t', hproceeds hrun, hT.trans hle, hreh⟩

namespace Rerun

variable (hcircle : Circle library keys)
  (h : Rerun library keys line units T root root' roots roots' script b s s' script' b' t)
include hcircle h

/-- The first script has declared. -/
theorem declares : Declares root roots s.1 s'.1 := h.proceeds.secluded hcircle h.stage.toStage

theorem sequel : Sequel root root' roots roots' s.1 t.1 :=
  ⟨h.stage.orderly, h.again.orderly, (h.declares hcircle).grows.endures.trans h.endures⟩

/-- **What comes next,** or a part of that, after both have taken a step. -/
theorem part (t₁ : Engine × μ) (hproceeds : Proceeds library (.declare script₁ b₁) s₁ s₂)
    (hstage : Circumspect keys units root roots script₁ b₁ s₁.1) (hend : Endures s₂.1 s'.1)
    (hstage' : Stage keys root' roots' script₁' b₁' t₁.1) (hd' : Declares root' roots' t.1 t₁.1)
    (hreh : Rehearses T₁ units root root' s₁.1 t₁.1) (hscope : T₁ b₁.scope b₁'.scope)
    (hdepth : b₁'.scope = root' → 0 < b₁'.depth)
    (halike : (mates T₁ units s₁.1 t₁.1).Exact →
      script₁.Alike (mates T₁ units s₁.1 t₁.1) script₁')
    (hrepeats : script₁.Repeats library line) :
    Rerun library keys line units T₁ root root' roots roots' script₁ b₁ s₁ s₂ script₁' b₁' t₁ :=
  have hend' := hend.trans (h.endures.trans hd'.grows.endures)
  { stage := hstage
    again := hstage'
    proceeds := hproceeds
    endures := hend'
    rehearses := hreh
    scope := hscope
    depth := hdepth
    alike := halike (hreh.exact ⟨hstage.orderly, hstage'.orderly,
      (hproceeds.secluded hcircle hstage.toStage).grows.endures.trans hend'⟩)
    repeats := hrepeats }

/-- **What comes next** after both have taken a step. -/
theorem next (t₁ : Engine × μ) (rest : Proceeds library (.declare script₁ b) s₁ s')
    (hstage : Circumspect keys units root roots script₁ b s₁.1)
    (hstage' : Stage keys root' roots' script₁' b' t₁.1) (hd' : Declares root' roots' t.1 t₁.1)
    (hT : T ≤ T₁) (hreh : Rehearses T₁ units root root' s₁.1 t₁.1)
    (halike : (mates T₁ units s₁.1 t₁.1).Exact →
      script₁.Alike (mates T₁ units s₁.1 t₁.1) script₁')
    (hrepeats : script₁.Repeats library line) :
    Rerun library keys line units T₁ root root' roots roots' script₁ b s₁ s' script₁' b' t₁ :=
  h.part hcircle t₁ rest hstage (refl_of Grows s'.1).endures hstage' hd' hreh
    (hT _ _ h.scope) h.depth halike hrepeats

omit h

/-- **A definition is extended.** In the second run it is known; its script declares what it has
    declared in the first one, and then the rest follows. -/
theorem extension (hline : Lineage library keys line) {next next' : Except Error ScopeId → Script μ}
    {base : ScopeId} {s₃ : Engine × μ}
    (h : Rerun library keys line units T root root' roots roots' (.extend d next) b s s'
      (.extend d next') b' t)
    (reached : Proceeds library (.reach d base) s s₁)
    (hbase : Script.setBase b base s₁ = some (.ok (), s₂))
    (extended : Proceeds library
      (.declare (library d).script { b with depth := b.depth + 1 }) s₂ s₃)
    (rest : Proceeds library (.declare (next (.ok base)) b) s₃ s') :
    ∃ t₂, Proceeds library (.reach d base) t t ∧ Script.setBase b' base t = some (.ok (), t₂) ∧
      Rerun library keys line units T root root' roots roots' (library d).script
        { b with depth := b.depth + 1 } s₂ s₃ (library d).script
        { b' with depth := b'.depth + 1 } t₂ ∧
      ∀ {T₃ t₃}, Proceeds library
        (.declare (library d).script { b' with depth := b'.depth + 1 }) t₂ t₃ → T ≤ T₃ →
        Rehearses T₃ units root root' s₃.1 t₃.1 →
          Rerun library keys line units T₃ root root' roots roots' (next (.ok base)) b s₃ s'
            (next' (.ok base)) b' t₃ := by
  have hkey := h.stage.stays.1
  have hreach := reached.secluded hcircle hkey h.stage.orderly
  have hready := (reached.reach_sound h.stage.orderly.sound).2.2
  have hm := reached.mentions hcircle hkey h.stage.orderly h.stage.discreet.settled
  -- In the first run the script of the definition comes after it is reached.
  obtain ⟨hd₂, hbase₂, hA₂⟩ := h.stage.extension hcircle hreach hm hready hbase
  have hd₃ := hd₂.trans (extended.secluded hcircle hA₂.toStage) hreach.orderly.sound.linked
  have hd : Declares root roots s.1 s₃.1 := hreach.declares.trans hd₃ h.stage.orderly.sound.linked
  have hbase₃ := (extended.secluded hcircle hA₂.toStage).grows.endures.settles hbase₂
  have hA₃ := h.stage.extend hd hbase₃ (extended.discreet hcircle hA₂)
  have hend₃ := (rest.secluded hcircle hA₃.toStage).grows.endures
  -- In the second run it is known.
  have hend₁ : Endures s₁.1 t.1 := hd₃.grows.endures.trans (hend₃.trans h.endures)
  have hknown : t.1.scopeOf? d = some base := hend₁.entries
    (reached.entry hcircle hkey (hline.single h.repeats.1) h.stage.orderly)
  rw [← hcircle.key hkey] at hknown
  have hready' := hend₁.ready hready
  obtain ⟨t₂, hset'⟩ := Script.setBase_succeeds b' base t
  obtain ⟨hd₂', hbase₂', hB₂⟩ := h.again.extension hcircle (.refl h.again.orderly) hready' hset'
  have hreh₂ := (h.rehearses.leaves hreach (refl_of Grows t.1).endures).setBase h.scope h.depth
    hbase hset' hd₂.grows.endures hd₂'.grows.endures
  refine ⟨t₂, .known hknown hready'.settles, hset',
    h.part hcircle t₂ extended hA₂ hend₃ hB₂ hd₂' hreh₂ h.scope (fun _ => Nat.succ_pos _)
      (fun hexact => hcircle.uniform hkey _ hexact fun _ => trivial) (hline.repeats h.repeats.1),
    fun {T₃ t₃} hrun hle hreh₃ => ?_⟩
  have hscript' := hrun.secluded hcircle hB₂
  have hd' := hd₂'.trans hscript' h.again.orderly.sound.linked
  have hB₃ := h.again.extend hd' (hscript'.grows.endures.settles hbase₂')
  cases h.alike with
  | extend hnext =>
    exact h.next hcircle t₃ rest hA₃ hB₃ hd' hle hreh₃ (fun hexact =>
      hnext (mates_mono hle hd.grows.endures hd'.grows.endures) hexact (.inr ⟨rfl, hbase₃⟩))
      (h.repeats.2 base)

/-- **A definition is used.** In the second run it is known. -/
theorem usage {next next' : Except Error ScopeRefs → Script μ} {used : ScopeId} {refs : ScopeRefs}
    {e e₁ f : Engine} {m m₁ m' : μ}
    (h : Rerun library keys line units T root root' roots roots' (.use d next) b (e, m) s'
      (.use d next') b' (f, m'))
    (reached : Proceeds library (.reach d used) (e, m) (e₁, m₁))
    (hrefs : (collectRefs used (e₁.addReference b.scope used)).1 = .ok refs)
    (rest : Proceeds library (.declare (next (.ok refs)) b) (e₁.addReference b.scope used, m₁) s') :
    ∃ refs', Proceeds library (.reach d used) (f, m') (f, m') ∧
      (collectRefs used (f.addReference b'.scope used)).1 = .ok refs' ∧
      Rerun library keys line units T root root' roots roots' (next (.ok refs)) b
        (e₁.addReference b.scope used, m₁) s' (next' (.ok refs')) b'
        (f.addReference b'.scope used, m') := by
  have hkey := h.stage.stays.1
  have hreach := reached.secluded hcircle hkey h.stage.orderly
  have hready := (reached.reach_sound h.stage.orderly.sound).2.2
  have hm := reached.mentions hcircle hkey h.stage.orderly h.stage.discreet.settled
  obtain ⟨hd₂, hA₂⟩ := h.stage.use hreach hm hready hrefs
  obtain ⟨hd, hused⟩ := h.stage.toStage.usage hreach hready
  have hend₂ := (rest.secluded hcircle hA₂.toStage).grows.endures.trans h.endures
  -- What it has in the first run it has in the second one, where it is looked up.
  have hend₁ := hd₂.grows.endures.trans hend₂
  have hknown : f.scopeOf? d = some used := hend₁.entries
    (reached.entry hcircle hkey h.repeats.1 h.stage.orderly)
  rw [← hcircle.key hkey] at hknown
  have hready' := hend₁.ready hready
  obtain ⟨hd', hused'⟩ := h.again.usage (.refl h.again.orderly) hready'
  obtain ⟨u, hu, -⟩ := id hused'
  have hrefs' := congrArg Prod.fst (collectRefs_eq hu)
  have hB₂ := h.again.use hd' hused' hrefs'
  have hq₂ : Sequel root root' roots roots' _ _ :=
    ⟨hA₂.orderly, hB₂.orderly, hend₂.trans hd'.grows.endures⟩
  have hreh₂ := (h.rehearses.leaves hreach (refl_of Grows f).endures).addReference used h.scope
    hd₂.grows.endures hd'.grows.endures
  refine ⟨_, .known hknown hready'.settles, hrefs', ?_⟩
  cases h.alike with
  | use hnext =>
    exact h.next hcircle (f.addReference b'.scope used, m') rest hA₂ hB₂ hd' le_rfl hreh₂
      (fun hexact => hnext (mates_mono le_rfl hd.grows.endures hd'.grows.endures) hexact
        (hq₂.collectRefs hA₂.discreet.settled hused hrefs hrefs')) (h.repeats.2 refs)

/-- **A group is declared,** and by the second script as well. -/
theorem grouping {condition : GroupCondition} {body body' : Script μ}
    {next next' : Except Error RuleRef → Script μ} {child : ScopeId} {r : RuleRef}
    {e e₁ e₂ e₃ f : Engine} {m m₂ m' : μ}
    (h : Rerun library keys line units T root root' roots roots' (.group condition body next) b
      (e, m) s' (.group condition body' next') b' (f, m'))
    (hchild : addNested b.scope e = (.ok child, e₁))
    (grouped : Proceeds library (.declare body ⟨child, 0⟩) (e₁, m) (e₂, m₂))
    (hrule : addUnnamedRule b.scope (.ofContent (.group condition child)) e₂ = (.ok r, e₃))
    (rest : Proceeds library (.declare (next (.ok r)) b) (e₃, m₂) s') :
    ∃ child' f₁ T₁, addNested b'.scope f = (.ok child', f₁) ∧ T ≤ T₁ ∧
      Rerun library keys line units T₁ root root' roots roots' body ⟨child, 0⟩ (e₁, m) (e₂, m₂)
        body' ⟨child', 0⟩ (f₁, m') ∧
      ∀ {T₂ t₂}, Proceeds library (.declare body' ⟨child', 0⟩) (f₁, m') t₂ → T₁ ≤ T₂ →
        Rehearses T₂ units root root' e₂ t₂.1 →
          ∃ r' f₃, addUnnamedRule b'.scope (.ofContent (.group condition child')) t₂.1 =
            (.ok r', f₃) ∧
            Rerun library keys line units T₂ root root' roots roots' (next (.ok r)) b (e₃, m₂) s'
              (next' (.ok r')) b' (f₃, t₂.2) := by
  have hq := h.sequel hcircle
  obtain ⟨hd₁, hA₁⟩ := h.stage.groupBody hchild
  have hbody₂ := grouped.secluded hcircle hA₁.toStage
  have hd₂ := hd₁.trans hbody₂ h.stage.orderly.sound.linked
  obtain ⟨hd₃, hA₃⟩ := h.stage.group hd₂ (hbody₂.grows.extended.inside hA₁.inside)
    (grouped.discreet hcircle hA₁) hrule
  have hend₃ := (rest.secluded hcircle hA₃.toStage).grows.endures
  -- The second script nests a scope as well.
  obtain ⟨u, hu⟩ := h.again.inside.live
  have hchild' := addNested_eq hu
  obtain ⟨hd₁', hB₁⟩ := h.again.groupBody hchild'
  have hreh₁ := h.rehearses.addNested hq h.scope hchild hchild' hd₁ hd₁'
  have hnew : f.nextScope ≠ root' := by
    obtain ⟨v, hv, -⟩ := h.again.orderly.sound.root_owner List.mem_cons_self
    exact (h.again.orderly.sound.linked.lt_nextScope hv).ne'
  cases h.alike with
  | group hbody hnext =>
    refine ⟨_, _, _, hchild', fun _ _ => .inl,
      h.part hcircle (_, m') grouped hA₁ (hd₃.grows.endures.trans hend₃) hB₁ hd₁' hreh₁
        (.inr ⟨rfl, rfl⟩) (fun hroot => absurd hroot hnew)
        (hbody (mates_mono (fun _ _ => .inl) hd₁.grows.endures hd₁'.grows.endures)) h.repeats.1,
      fun {T₂ t₂} hrun hle hreh₂ => ?_⟩
    have hd₂' := hd₁'.trans (hrun.secluded hcircle hB₁) h.again.orderly.sound.linked
    have hT : T ≤ T₂ := fun _ _ hkj => hle _ _ (.inl hkj)
    -- Both groups get their rules.
    have hin' := hd₂'.grows.extended.inside h.again.inside
    obtain ⟨v, hv⟩ := hin'.live
    have hrule' := addUnnamedRule_eq hv (.ofContent (.group condition f.nextScope))
    obtain ⟨hd', hB₃⟩ := h.again.group hd₂' hrule'
    have hgroup : (Rule.ofContent (.group condition child)).Alike (mates T₂ units e₂ t₂.1)
        (.ofContent (.group condition f.nextScope)) :=
      ⟨.group (.inl (hle _ _ (.inr ⟨rfl, rfl⟩))), rfl, rfl⟩
    obtain ⟨hreh₃, hr⟩ := hreh₂.addUnnamedRule (hT _ _ h.scope) hgroup rfl hrule hrule' hd₃
      (.addUnnamedRule hd₂'.orderly hin' (fun _ hbody => by cases hbody) hrule')
    exact ⟨_, _, hrule', h.next hcircle (_, t₂.2) rest hA₃ hB₃ hd' hT hreh₃ (fun hexact =>
      hnext (mates_mono hT (hd₂.grows.endures.trans hd₃.grows.endures) hd'.grows.endures) hexact hr)
      (h.repeats.2 r)⟩

end Rerun

/-- What becomes of a script that is run once more. -/
def Task.Repeated (library : Library μ) (keys line : Nat → Prop) (units : UnitTable)
    (s s' : Engine × μ) : Task μ → Prop
  | .declare script b => ∀ {T root root' roots roots' script' b' t},
    Rerun library keys line units T root root' roots roots' script b s s' script' b' t →
    StyleBook.Repeated library units T root root' s' script' b' t
  | .reach .. => True

/-- **A script that is run once more proceeds,** and declares what the first run has declared. -/
theorem Proceeds.repeated (hcircle : Circle library keys) (hline : Lineage library keys line)
    {task : Task μ} (h : Proceeds library task s s') :
    task.Repeated library keys line units s s' := by
  induction h with
  | done =>
    intro T root root' roots roots' script' b' t hR
    have halike := hR.alike
    cases halike
    exact ⟨T, t, .done, le_rfl, hR.rehearses⟩
  | @add slot rule next b e e₁ m s' r hadd rest ih =>
    intro T root root' roots roots' script' b' t hR
    have halike := hR.alike
    cases halike with
    | @add _ _ _ next' _ rule' hrule hnext =>
      obtain ⟨f, m'⟩ := t
      obtain ⟨u, hu⟩ := hR.again.inside.live
      obtain ⟨r', f₁, hadd'⟩ := addRule_succeeds hu slot rule'
      obtain ⟨hd, hA₁⟩ := hR.stage.add hadd
      obtain ⟨hd', hB₁⟩ := hR.again.add hadd'
      obtain ⟨hreh, hr⟩ :=
        hR.rehearses.addRule (hR.sequel hcircle) hR.scope hrule hadd hadd' hd hd'
      have hR₁ := hR.next hcircle (f₁, m') rest hA₁ hB₁ hd' le_rfl hreh (fun hexact =>
        hnext (mates_mono le_rfl hd.grows.endures hd'.grows.endures) hexact hr) (hR.repeats r)
      exact (ih hR₁).before le_rfl (.add hadd')
  | @addUnnamed rule next b e e₁ m s' r hadd rest ih =>
    intro T root root' roots roots' script' b' t hR
    have halike := hR.alike
    cases halike with
    | @addUnnamed _ _ next' _ rule' hrule hnext =>
      obtain ⟨f, m'⟩ := t
      obtain ⟨u, hu⟩ := hR.again.inside.live
      have hadd' := addUnnamedRule_eq hu rule'
      obtain ⟨hd, hA₁⟩ := hR.stage.addUnnamed hadd
      obtain ⟨hd', hB₁⟩ := hR.again.addUnnamed hadd'
      obtain ⟨hreh, hr⟩ :=
        hR.rehearses.addUnnamedRule hR.scope hrule hR.repeats.1 hadd hadd' hd hd'
      have hR₁ := hR.next hcircle (_, m') rest hA₁ hB₁ hd' le_rfl hreh (fun hexact =>
        hnext (mates_mono le_rfl hd.grows.endures hd'.grows.endures) hexact hr) (hR.repeats.2 r)
      exact (ih hR₁).before le_rfl (.addUnnamed hadd')
  | @find slot next b s s' rest ih =>
    intro T root root' roots roots' script' b' t hR
    have halike := hR.alike
    cases halike with
    | find hnext =>
      have hr := hR.rehearses.findRule (hR.sequel hcircle) hR.scope slot
      have hR₁ := hR.next hcircle t rest hR.stage.find hR.again.find (.refl hR.again.orderly) le_rfl
        hR.rehearses (fun _ => hnext hr) (hR.repeats _)
      exact (ih hR₁).before le_rfl .find
  | scope rest ih =>
    intro T root root' roots roots' script' b' t hR
    have halike := hR.alike
    cases halike with
    | scope hnext =>
      have hR₁ := hR.next hcircle t rest hR.stage.scope hR.again.scope
        (.refl hR.again.orderly) le_rfl hR.rehearses (fun _ => hnext (.inl hR.scope))
        (hR.repeats _)
      exact (ih hR₁).before le_rfl .scope
  | @extend d next b base s s₁ s₂ s₃ s' reached hbase extended rest ihr ihd ih =>
    intro T root root' roots roots' script' b' t hR
    have halike := hR.alike
    cases halike with
    | extend hnext =>
      obtain ⟨t₂, hknown, hset', hR₂, hafter⟩ :=
        hR.extension hcircle hline reached hbase extended rest
      obtain ⟨T₃, t₃, hrun, hle, hreh₃⟩ := ihd hR₂
      exact (ih (hafter hrun hle hreh₃)).before hle (.extend hknown hset' hrun)
  | @use d next b used refs e m e₁ m₁ s' reached hrefs rest ihr ih =>
    intro T root root' roots roots' script' b' t hR
    have halike := hR.alike
    cases halike with
    | use hnext =>
      obtain ⟨refs', hknown, hrefs', hR₂⟩ := hR.usage hcircle reached hrefs rest
      exact (ih hR₂).before le_rfl (.use hknown hrefs')
  | @group condition body next b child r e m e₁ e₂ m₂ e₃ s' hchild grouped hrule rest ihb ih =>
    intro T root root' roots roots' script' b' t hR
    have halike := hR.alike
    cases halike with
    | group hbody hnext =>
      obtain ⟨child', f₁, T₁, hchild', hT₁, hR₁, hafter⟩ :=
        hR.grouping hcircle hchild grouped hrule rest
      obtain ⟨T₂, t₂, hrun, hle, hreh₂⟩ := ihb hR₁
      obtain ⟨r', f₃, hrule', hR₃⟩ := hafter hrun hle hreh₂
      exact (ih hR₃).before (hT₁.trans hle) (.group hchild' hrun hrule')
  | @nameOf cell next b s s' rest ih =>
    intro T root root' roots roots' script' b' t hR
    have halike := hR.alike
    cases halike with
    | nameOf hcell hnext =>
      have hname := hR.rehearses.name? (hR.sequel hcircle) hcell
      have hR₁ := hR.next hcircle t rest (hR.stage.nameOf _) (hR.again.nameOf _)
        (.refl hR.again.orderly) le_rfl hR.rehearses (fun _ => hnext _) (hR.repeats _)
      refine (ih hR₁).before le_rfl fun hrun => .nameOf ?_
      rwa [← hname]
  | @report event next b e m s' rest ih =>
    intro T root root' roots roots' script' b' t hR
    have halike := hR.alike
    cases halike with
    | @report _ _ event' _ _ hnext =>
      obtain ⟨f, m'⟩ := t
      obtain ⟨hd, hA₁⟩ := hR.stage.report
      obtain ⟨hd', hB₁⟩ : Declares root' roots' f (f.report event') ∧
          Stage keys root' roots' _ b' (f.report event') := hR.again.report
      have hR₁ := hR.next hcircle (f.report event', m') rest hA₁ hB₁ hd' le_rfl
        (hR.rehearses.aside rfl rfl hd.grows.endures hd'.grows.endures) (fun _ => hnext) hR.repeats
      exact (ih hR₁).before le_rfl .report
  | look => exact fun hR => nomatch hR.alike
  | remember rest ih =>
    intro T root root' roots roots' script' b' t hR
    have halike := hR.alike
    cases halike with
    | @remember _ _ change' _ _ hnext =>
      obtain ⟨f, m'⟩ := t
      have hR₁ := hR.next hcircle (f, change' m') rest hR.stage.remember hR.again.remember
        (.refl hR.again.orderly) le_rfl hR.rehearses (fun _ => hnext) hR.repeats
      exact (ih hR₁).before le_rfl .remember
  | known => trivial
  | new => trivial

end StyleBook
