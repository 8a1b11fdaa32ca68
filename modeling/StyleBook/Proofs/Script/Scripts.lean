import StyleBook.Proofs.Engine.Constructing

namespace StyleBook

/-!
# What scripts do

A script declares in a scope, and reaches definitions whose scripts declare in turn.

* `Script.Declares P` — each styleset that a script declares, in its own scope or in a scope it
  reaches, is declared under `P`;
* `Script.run_builds` — a script builds, in the scope it declares;
* `Engine.process_builds`, `Engine.processInstance_builds` — the scope of a definition is built,
  and it is processed if there is one.
-/

variable {μ α : Type} {P : Engine → ScopeId → StyleBody → Prop}

/-- What is asked of the definitions that a script reaches. -/
structure Watch (μ : Type) where
  /-- Of a definition that gets a scope of its own. -/
  process : Nat → Engine × μ → Prop
  /-- Of a definition whose script runs where another one declares. -/
  declare : Nat → Builder → Engine × μ → Prop

/-- Whatever the computation results in, if it does, is in `Q`. -/
def BuildM.After (c : BuildM μ α) (s : Engine × μ) (Q : α → Engine × μ → Prop) : Prop :=
  ∀ a s', c s = some (.ok a, s') → Q a s'

namespace Script

open BuildM

/-- The first scope that a definition gets extended is the base of the scope that extends it. -/
def setBase (b : Builder) (base : ScopeId) : BuildM μ Unit :=
  if b.depth = 0 then
    changeEngine (·.modifyScope b.scope fun s => { s with base := some base })
  else return ()

/-- Declare all that another definition declares. -/
def extension (calls : Calls μ) (definition : Nat) (b : Builder) : BuildM μ ScopeId := do
  let base ← calls.process definition
  setBase b base
  calls.declare definition { b with depth := b.depth + 1 }
  return base

/-- Use the rules of another definition. -/
def usage (calls : Calls μ) (definition : Nat) (b : Builder) : BuildM μ ScopeRefs := do
  let used ← calls.process definition
  changeEngine (·.addReference b.scope used)
  onEngine (Engine.collectRefs used)

/-- Declare a group of rules. -/
def grouping (calls : Calls μ) (condition : GroupCondition) (body : Script μ) (b : Builder) :
    BuildM μ RuleRef := do
  let child ← onEngine (Engine.addNested b.scope)
  body.run calls ⟨child, 0⟩
  onEngine (Engine.addUnnamedRule b.scope (.ofContent (.group condition child)))

variable {calls : Calls μ} {b : Builder}

/-- An extension is attempted, and its answer goes on to the script. -/
theorem run_extend (definition : Nat) (next : Except Error ScopeId → Script μ) :
    (Script.extend definition next).run calls b = (do
      let answer ← attempt (extension calls definition b)
      (next answer).run calls b) := by
  have hsame : extension calls definition b = (do
      let base ← calls.process definition
      if b.depth = 0 then
        changeEngine (·.modifyScope b.scope fun s => { s with base := some base })
      calls.declare definition { b with depth := b.depth + 1 }
      return base) := by
    unfold extension setBase
    refine congrArg (calls.process definition >>= ·) (funext fun base => ?_)
    split <;> simp only [pure_bind]
  rw [hsame]
  rfl

/-- So is a usage. -/
theorem run_use (definition : Nat) (next : Except Error ScopeRefs → Script μ) :
    (Script.use definition next).run calls b = (do
      let answer ← attempt (usage calls definition b)
      (next answer).run calls b) := rfl

/-- So is a group. -/
theorem run_group (condition : GroupCondition) (body : Script μ)
    (next : Except Error RuleRef → Script μ) :
    (Script.group condition body next).run calls b = (do
      let answer ← attempt (grouping calls condition body b)
      (next answer).run calls b) := rfl

/-- The styleset of the rule, if it has one, is declared under `P`. -/
def Allowed (P : Engine → ScopeId → StyleBody → Prop) (e : Engine) (id : ScopeId)
    (content : RuleContent) : Prop :=
  ∀ body, content.body? = some body → P e id body

/-- **Each styleset that the script declares is declared under `P`,** when the script runs in the
    given state; so are those of the definitions it reaches, by what is asked of them. -/
def Declares (P : Engine → ScopeId → StyleBody → Prop) (calls : Calls μ) (watch : Watch μ) :
    Script μ → Builder → Engine × μ → Prop
  | .done, _, _ => True
  | .fail _, _, _ => True
  | .add slot rule next, b, s =>
    Allowed P s.1 b.scope rule.content ∧
      After (onEngine (Engine.addRule b.scope slot rule)) s fun r s =>
        (next r).Declares P calls watch b s
  | .addUnnamed rule next, b, s =>
    Allowed P s.1 b.scope rule.content ∧
      After (onEngine (Engine.addUnnamedRule b.scope rule)) s fun r s =>
        (next r).Declares P calls watch b s
  | .find slot next, b, s => (next (s.1.findRule b.scope slot)).Declares P calls watch b s
  | .scope next, b, s => (next b.scope).Declares P calls watch b s
  | .extend definition next, b, s =>
    watch.process definition s ∧
      After (do let base ← calls.process definition; setBase b base) s (fun _ s =>
        watch.declare definition { b with depth := b.depth + 1 } s) ∧
      After (attempt (extension calls definition b)) s fun answer s =>
        (next answer).Declares P calls watch b s
  | .use definition next, b, s =>
    watch.process definition s ∧
      After (attempt (usage calls definition b)) s fun answer s =>
        (next answer).Declares P calls watch b s
  | .group condition body next, b, s =>
    After (onEngine (Engine.addNested b.scope)) s (fun child s =>
        body.Declares P calls watch ⟨child, 0⟩ s) ∧
      After (attempt (grouping calls condition body b)) s fun answer s =>
        (next answer).Declares P calls watch b s
  | .nameOf cell next, b, s => (next (cell.name? s.1.names)).Declares P calls watch b s
  | .report event next, b, s => next.Declares P calls watch b (s.1.report event, s.2)
  | .look next, b, s => (next s.2).Declares P calls watch b s
  | .remember change next, b, s => next.Declares P calls watch b (s.1, change s.2)

end Script

namespace Engine

/-- Each styleset is declared under `P` in the scope of an instance of a definition, if it gets a
    new one. -/
def InstanceDeclares (P : Engine → ScopeId → StyleBody → Prop) (calls : Calls μ) (watch : Watch μ)
    (d : Definition μ) (s : Engine × μ) : Prop :=
  d.key ∉ s.1.constructing → (d.multiplex = false → s.1.scopeOf? d.key = none) →
    d.script.Declares P calls watch ⟨s.1.nextScope, 0⟩ (opened d s.1, s.2)

/-- What is asked of the definitions of a library, at most `limit` of them inside each other. -/
def watch (P : Engine → ScopeId → StyleBody → Prop) (library : Library μ) : Nat → Watch μ
  | 0 => ⟨fun _ _ => True, fun _ _ _ => True⟩
  | limit + 1 =>
    { process := fun key s => s.1.scopeOf? (library key).key = none →
        InstanceDeclares P (calls library limit) (watch P library limit) (library key) s
      declare := fun key b s =>
        (library key).script.Declares P (calls library limit) (watch P library limit) b s }

end Engine

/-- Nothing is asked of scripts when all stylesets are allowed. -/
theorem Script.declares_of_forall (hP : ∀ e id body, P e id body) {calls : Calls μ}
    {watch : Watch μ} (hprocess : ∀ key s, watch.process key s)
    (hdeclare : ∀ key b s, watch.declare key b s) (script : Script μ) (b : Builder)
    (s : Engine × μ) : script.Declares P calls watch b s := by
  -- Every condition is about a styleset that is declared, or about what a call reaches.
  induction script generalizing b s with
  | done => trivial
  | fail e => trivial
  | add slot rule next ih => exact ⟨fun _ _ => hP _ _ _, fun r s' _ => ih r b s'⟩
  | addUnnamed rule next ih => exact ⟨fun _ _ => hP _ _ _, fun r s' _ => ih r b s'⟩
  | find slot next ih => exact ih _ b s
  | scope next ih => exact ih _ b s
  | extend definition next ih =>
    exact ⟨hprocess _ s, fun _ s' _ => hdeclare _ _ s', fun answer s' _ => ih answer b s'⟩
  | use definition next ih => exact ⟨hprocess _ s, fun answer s' _ => ih answer b s'⟩
  | group condition body next ihb ih =>
    exact ⟨fun child s' _ => ihb ⟨child, 0⟩ s', fun answer s' _ => ih answer b s'⟩
  | nameOf cell next ih => exact ih _ b s
  | report event next ih => exact ih b _
  | look next ih => exact ih _ b s
  | remember change next ih => exact ih b _

/-- Nothing is asked of libraries either. -/
theorem Engine.watch_of_forall (hP : ∀ e id body, P e id body) (library : Library μ)
    (limit : Nat) : (∀ key s, (watch P library limit).process key s) ∧
      ∀ key b s, (watch P library limit).declare key b s := by
  induction limit with
  | zero => exact ⟨fun _ _ => trivial, fun _ _ _ => trivial⟩
  | succ limit ih =>
    exact ⟨fun _ _ _ _ _ => Script.declares_of_forall hP ih.1 ih.2 _ _ _,
      fun _ _ _ => Script.declares_of_forall hP ih.1 ih.2 _ _ _⟩

/-! ### Scripts -/

namespace Engine

variable {roots : List ScopeId} {root id : ScopeId} {e : Engine}

/-- The second of two states is built from the first one. -/
abbrev BuildsState (P : Engine → ScopeId → StyleBody → Prop) (roots : List ScopeId)
    (s s' : Engine × μ) : Prop := Builds P roots s.1 s'.1

instance : IsPreorder (Engine × μ) (BuildsState P roots) where
  refl _ := .refl
  trans _ _ _ := .trans

/-- If the result is a scope, it is processed and not nested. -/
def Reached (e : Engine) (r : Except Error ScopeId) : Prop :=
  ∀ id, r = .ok id → ∃ t, e.scope? id = some t ∧ t.Settled ∧ t.owner = none

/-- How scripts reach definitions builds, if what is asked of the definitions holds. -/
structure Reaches (P : Engine → ScopeId → StyleBody → Prop) (calls : Calls μ) (watch : Watch μ) :
    Prop where
  process {roots s key r s'} : Sound roots s.1 → watch.process key s →
    calls.process key s = some (r, s') → Builds P roots s.1 s'.1 ∧ Reached s'.1 r
  declare {root roots s key b} : Sound (root :: roots) s.1 → s.1.Inside root b.scope →
    watch.declare key b s → Moves (BuildsState P (root :: roots)) (calls.declare key b) s

/-- Declaring a rule under a slot is building. -/
theorem addRule_builds (hin : e.Inside root id) {rule : Rule}
    (hP : Script.Allowed P e id rule.content) (slot : String) :
    Builds P (root :: roots) e (addRule id slot rule e).2 :=
  .declare (C := (· = rule.content)) hin (fun _ body hc hbody => hP body (hc ▸ hbody))
    (addRule_declared id slot rule e)

/-- Declaring a rule without a slot is building. -/
theorem addUnnamedRule_builds (hin : e.Inside root id) {rule : Rule}
    (hP : Script.Allowed P e id rule.content) :
    Builds P (root :: roots) e (addUnnamedRule id rule e).2 :=
  .declare (C := (· = rule.content)) hin (fun _ body hc hbody => hP body (hc ▸ hbody))
    (addUnnamedRule_declared id rule e)

/-- Nesting a scope is building. -/
theorem addNested_builds (h : Linked e) (hin : e.Inside root id) :
    ∃ child e', addNested id e = (.ok child, e') ∧ (∀ roots, Builds P (root :: roots) e e') ∧
      e'.Inside root child := by
  obtain ⟨s, hs⟩ := hin.live
  let t : Scope :=
    { name := s.name, definition := s.definition, multiplex := false, owner := some id }
  have hg := grown_nested (t := t) h hs ⟨rfl, rfl, rfl, rfl, rfl, rfl, rfl⟩
  obtain ⟨u, hu, hfresh⟩ := hg.born
  refine ⟨e.nextScope, _, ?_, fun _ => .nest hin hg, .nested hu hfresh.owner ?_⟩
  · unfold addNested
    rw [stateful_bind_ok (requireScope_some hs)]
    rfl
  · exact (hg.inside_iff h (mem_keys_of_scope? hs)).mpr hin

/-- Looking handles up changes nothing. -/
theorem collectRefs_snd (id : ScopeId) (e : Engine) : (collectRefs id e).2 = e := by
  unfold collectRefs
  cases hs : e.scope? id with
  | none => rw [stateful_bind_error (requireScope_none hs)]
  | some s => rw [stateful_bind_ok (requireScope_some hs)]; rfl

end Engine

namespace Script

open BuildM
open Engine hiding onEngine changeEngine

variable {calls : Calls μ} {watch : Watch μ} {b : Builder} {s : Engine × μ}
  {root : ScopeId} {roots : List ScopeId}

/-- Extending a scope is building. -/
theorem setBase_builds (hb : s.1.Inside root b.scope) (base : ScopeId) :
    Moves (BuildsState P (root :: roots)) (setBase b base) s := by
  unfold setBase
  split
  · exact moves_changeEngine (.declare (C := fun _ => False) hb (fun _ _ hc => hc.elim)
      (setBase_declared b.scope base s.1))
  · exact .pure _ s

/-- Extending a definition is building. -/
theorem extension_builds (hcalls : Reaches P calls watch) (hs : Sound (root :: roots) s.1)
    (hb : s.1.Inside root b.scope) {definition : Nat} (hprocess : watch.process definition s)
    (hdeclare : After (do let base ← calls.process definition; setBase b base) s fun _ s =>
      watch.declare definition { b with depth := b.depth + 1 } s) :
    Moves (BuildsState P (root :: roots)) (extension calls definition b) s := by
  unfold extension
  refine .bind (fun _ _ h => (hcalls.process hs hprocess h).1) fun base s₁ h₁ => ?_
  obtain ⟨hs₁, hx₁⟩ := (hcalls.process hs hprocess h₁).1.sound hs
  have hbase : Moves (BuildsState P (root :: roots)) (setBase b base) s₁ :=
    setBase_builds (hx₁.inside hb) base
  refine .bind hbase fun _ s₂ h₂ => ?_
  have hrun : (do let base ← calls.process definition; setBase b base) s = some (.ok (), s₂) := by
    rw [partial_bind, h₁]
    exact h₂
  obtain ⟨hs₂, hx₂⟩ := Builds.sound (hbase _ s₂ h₂) hs₁
  refine .bind (hcalls.declare hs₂ (hx₂.inside (hx₁.inside hb)) (hdeclare _ _ hrun)) ?_
  exact fun _ s₃ _ => .pure _ s₃

/-- Using a definition is building. -/
theorem usage_builds (hcalls : Reaches P calls watch) (hs : Sound (root :: roots) s.1)
    (hb : s.1.Inside root b.scope) {definition : Nat} (hprocess : watch.process definition s) :
    Moves (BuildsState P (root :: roots)) (usage calls definition b) s := by
  unfold usage
  refine .bind (fun _ _ h => (hcalls.process hs hprocess h).1) fun used s₁ h₁ => ?_
  obtain ⟨hbuilds, hreached⟩ := hcalls.process hs hprocess h₁
  obtain ⟨hs₁, hx₁⟩ := hbuilds.sound hs
  refine .bind (moves_changeEngine (.refer (hx₁.inside hb) (hreached used rfl)
    (addReference_referenced b.scope used s₁.1))) fun _ s₂ _ => moves_onEngine ?_
  rw [collectRefs_snd]
  exact .refl

/-- Declaring a group is building, if its rules are. -/
theorem grouping_builds (hs : Sound (root :: roots) s.1) (hb : s.1.Inside root b.scope)
    (condition : GroupCondition) {body : Script μ}
    (hbody : ∀ child s₁, onEngine (addNested b.scope) s = some (.ok child, s₁) →
      Sound (root :: roots) s₁.1 → s₁.1.Inside root child →
      Moves (BuildsState P (root :: roots)) (body.run calls ⟨child, 0⟩) s₁) :
    Moves (BuildsState P (root :: roots)) (grouping calls condition body b) s := by
  -- The group's scope is nested first, its body is run in it, and then its rule is declared
  -- outside.
  obtain ⟨child, e₁, hnest, hbuilds, hchild⟩ := addNested_builds (P := P) hs.linked hb
  have hnest' : onEngine (addNested b.scope) s = some (.ok child, (e₁, s.2)) := by
    rw [BuildM.onEngine_apply, hnest]
  obtain ⟨hs₁, hx₁⟩ := (hbuilds roots).sound hs
  unfold grouping
  refine .bind (moves_onEngine ?_) fun child' s₁ h₁ => ?_
  · rw [hnest]
    exact hbuilds roots
  · rw [hnest'] at h₁
    cases h₁
    have hrun := hbody child _ hnest' hs₁ hchild
    refine .bind hrun fun _ s₂ h₂ => moves_onEngine ?_
    obtain ⟨-, hx₂⟩ := Builds.sound (hrun _ s₂ h₂) hs₁
    exact addUnnamedRule_builds (hx₂.inside (hx₁.inside hb)) fun body hb' => by cases hb'

/-- What comes next runs in a state that is built from this one. -/
theorem moves_next {c : BuildM μ α} {f : α → Script μ} (hs : Sound (root :: roots) s.1)
    (hb : s.1.Inside root b.scope) (hc : Moves (BuildsState P (root :: roots)) c s)
    (hf : ∀ a s₁, c s = some (.ok a, s₁) → Sound (root :: roots) s₁.1 →
      s₁.1.Inside root b.scope →
      Moves (BuildsState P (root :: roots)) ((f a).run calls b) s₁) :
    Moves (BuildsState P (root :: roots)) (do let a ← c; (f a).run calls b) s := by
  refine .bind hc fun a s₁ h₁ => ?_
  obtain ⟨hs₁, hx₁⟩ := Builds.sound (hc _ s₁ h₁) hs
  exact hf a s₁ h₁ hs₁ (hx₁.inside hb)

/-- **A script builds,** in the scope it declares. -/
theorem run_builds (hcalls : Reaches P calls watch) (script : Script μ) (b : Builder)
    (s : Engine × μ) (hs : Sound (root :: roots) s.1) (hb : s.1.Inside root b.scope)
    (hd : script.Declares P calls watch b s) :
    Moves (BuildsState P (root :: roots)) (script.run calls b) s := by
  -- Each step builds by its own lemma, and leaves a sound engine in which the builder's scope is
  -- inside of the root; the rest of the script goes on there.
  induction script generalizing b s with
  | done => exact .pure _ s
  | fail err => exact .throw err s
  | add slot rule next ih =>
    refine moves_next hs hb (moves_onEngine (addRule_builds hb hd.1 slot)) fun r s₁ h₁ hs₁ hb₁ => ?_
    exact ih r b s₁ hs₁ hb₁ (hd.2 r s₁ h₁)
  | addUnnamed rule next ih =>
    refine moves_next hs hb (moves_onEngine (addUnnamedRule_builds hb hd.1))
      fun r s₁ h₁ hs₁ hb₁ => ?_
    exact ih r b s₁ hs₁ hb₁ (hd.2 r s₁ h₁)
  | find slot next ih => exact ih _ b s hs hb hd
  | scope next ih => exact ih _ b s hs hb hd
  | extend definition next ih =>
    rw [run_extend]
    refine moves_next hs hb (moves_attempt (extension_builds hcalls hs hb hd.1 hd.2.1))
      fun answer s₁ h₁ hs₁ hb₁ => ?_
    exact ih answer b s₁ hs₁ hb₁ (hd.2.2 answer s₁ h₁)
  | use definition next ih =>
    rw [run_use]
    refine moves_next hs hb (moves_attempt (usage_builds hcalls hs hb hd.1))
      fun answer s₁ h₁ hs₁ hb₁ => ?_
    exact ih answer b s₁ hs₁ hb₁ (hd.2 answer s₁ h₁)
  | group condition body next ihb ih =>
    rw [run_group]
    refine moves_next hs hb
      (moves_attempt (grouping_builds hs hb condition fun child s₁ h₁ hs₁ hin => ?_))
      fun answer s₁ h₁ hs₁ hb₁ => ?_
    · exact ihb ⟨child, 0⟩ s₁ hs₁ hin (hd.1 child s₁ h₁)
    · exact ih answer b s₁ hs₁ hb₁ (hd.2 answer s₁ h₁)
  | nameOf cell next ih => exact ih _ b s hs hb hd
  | report event next ih =>
    refine moves_next (f := fun _ => next) hs hb (moves_changeEngine (.aside rfl rfl rfl))
      fun _ s₁ h₁ hs₁ hb₁ => ?_
    cases h₁
    exact ih b _ hs₁ hb₁ hd
  | look next ih => exact ih _ b s hs hb hd
  | remember change next ih => exact ih b (s.1, change s.2) hs hb hd

end Script

namespace Engine

open BuildM hiding onEngine changeEngine

variable {roots : List ScopeId} {calls : Calls μ} {watch : Watch μ} {s s' : Engine × μ}
  {d : Definition μ} {r : Except Error ScopeId}

/-! ### Definitions -/

/-- The scope of a definition that has one is the result, or nothing is. -/
theorem existing_reached {e : Engine} {id : ScopeId} (title : String)
    (hid : ∃ s, e.scope? id = some s ∧ s.owner = none) :
    (existing title id e).2 = e ∧ Reached e (existing title id e).1 := by
  obtain ⟨t, ht, ho⟩ := hid
  unfold existing
  rw [stateful_bind_ok (requireScope_some ht)]
  by_cases hstate : t.state = .unprocessed
  · simp only [if_pos hstate]
    exact ⟨rfl, fun _ h => by cases h⟩
  · simp only [if_neg hstate]
    refine ⟨rfl, fun _ h => ?_⟩
    cases h
    exact ⟨t, ht, hstate, ho⟩

/-- What is left to do for a definition whose script has run. -/
def concluding (d : Definition μ) (id : ScopeId) : Except Error Unit → BuildM μ ScopeId
  | .error e => do
    BuildM.changeEngine (·.abandon id d.key)
    BuildM.changeEngine (·.report (.definitionFailed d.title e))
    match e with
    | .definitionCycle _ => throw e
    | _ => throw (.definitionConstruction d.title e.message)
  | .ok () => do
    match ← attempt (BuildM.onEngine (processScope id)) with
    | .error e => do
      BuildM.changeEngine (·.abandon id d.key)
      throw e
    | .ok () => return id

/-- A script that succeeded is followed by processing the scope. -/
theorem concluding_ok (d : Definition μ) (id : ScopeId) (s : Engine × μ) :
    concluding d id (.ok ()) s =
      match processScope id s.1 with
      | (.ok (), e) => some (.ok id, (e, s.2))
      | (.error err, e) => some (.error err, (e.abandon id d.key, s.2)) := by
  show (attempt (BuildM.onEngine (processScope id)) >>= _) s = _
  rw [partial_bind]
  unfold attempt
  rw [BuildM.onEngine_apply]
  rcases processScope id s.1 with ⟨err | ⟨⟩, e⟩ <;> rfl

/-- After a script that failed the scope is given up, with a report. -/
theorem concluding_error (d : Definition μ) (id : ScopeId) (err : Error) (s : Engine × μ) :
    ∃ err', concluding d id (.error err) s =
      some (.error err', ((s.1.abandon id d.key).report (.definitionFailed d.title err), s.2)) := by
  cases err <;> exact ⟨_, rfl⟩

/-- The engine after the definition that declared last. -/
def endConstruction (e : Engine) : Engine := { e with constructing := e.constructing.drop 1 }

/-- A definition gets its scope, runs its script, and concludes. -/
theorem construct_eq (calls : Calls μ) (d : Definition μ) (s : Engine × μ) :
    construct calls d s =
      match d.script.run calls ⟨s.1.nextScope, 0⟩ (opened d s.1, s.2) with
      | some (r, s') => concluding d s.1.nextScope r (s'.1.endConstruction, s'.2)
      | none => none := by
  unfold construct
  rw [partial_bind, BuildM.onEngine_apply, openScope_eq]
  simp only
  rw [partial_bind]
  unfold attempt
  rcases d.script.run calls ⟨s.1.nextScope, 0⟩ (opened d s.1, s.2) with _ | ⟨r, s'⟩
  · rfl
  · cases r <;> rfl

/-- **A definition gets a new scope,** which is processed if it is the result. -/
theorem construct_builds (hcalls : Reaches P calls watch) (hs : Sound roots s.1)
    (hd : d.script.Declares P calls watch ⟨s.1.nextScope, 0⟩ (opened d s.1, s.2))
    (h : construct calls d s = some (r, s')) : Builds P roots s.1 s'.1 ∧ Reached s'.1 r := by
  have ho := opened_spec d hs
  obtain ⟨t, ht, -⟩ := ho.sound.root_owner List.mem_cons_self
  have hrun := d.script.run_builds hcalls ⟨s.1.nextScope, 0⟩ (opened d s.1, s.2) ho.sound
    (.root ht) hd
  rw [construct_eq] at h
  rcases hscript : d.script.run calls ⟨s.1.nextScope, 0⟩ (opened d s.1, s.2) with
    _ | ⟨declared, s₁⟩ <;> rw [hscript] at h
  · cases h
  have hinner : Builds P (s.1.nextScope :: roots) (opened d s.1) s₁.1.endConstruction :=
    .trans (hrun _ _ hscript) (.aside rfl rfl rfl)
  cases declared with
  | error err =>
    obtain ⟨err', hend⟩ := concluding_error d s.1.nextScope err (s₁.1.endConstruction, s₁.2)
    cases h.symm.trans hend
    exact ⟨.trans (.failed d hinner) (.aside rfl rfl rfl), fun _ hr => by cases hr⟩
  | ok _ =>
    replace h := (concluding_ok d s.1.nextScope (s₁.1.endConstruction, s₁.2)).symm.trans h
    rcases hproc : processScope s.1.nextScope s₁.1.endConstruction with ⟨err | ⟨⟩, e₂⟩ <;>
      simp only [hproc] at h
    · cases h
      exact ⟨.unprocessed d hinner hproc, fun _ hr => by cases hr⟩
    · cases h
      refine ⟨.processed d hinner hproc, fun _ hr => ?_⟩
      cases hr
      -- The scope was opened for the definition, and processing it has succeeded.
      obtain ⟨hs₁, hx₁⟩ := hinner.sound ho.sound
      obtain ⟨hp, -, -⟩ := ho.pending hs₁ hx₁
      have hprocesses := hp.processScope hs₁
      rw [hproc] at hprocesses
      obtain ⟨u, hu, howner⟩ := (hp.processes hprocesses).root_owner List.mem_cons_self
      obtain ⟨u₁, hu₁, -⟩ := hprocesses.progressed.back hu
      exact ⟨u, hu, hprocesses.settled rfl (.root hu₁) hu, howner⟩

/-- **The scope of an instance of a definition.** -/
theorem processInstanceWith_builds (hcalls : Reaches P calls watch) (hs : Sound roots s.1)
    (hd : InstanceDeclares P calls watch d s)
    (h : processInstanceWith calls d s = some (r, s')) :
    Builds P roots s.1 s'.1 ∧ Reached s'.1 r := by
  unfold processInstanceWith at h
  rw [partial_bind, partial_get] at h
  simp only at h
  -- Only a definition that is not multiplex, and has a scope, is taken as it is.
  by_cases hkey : d.key ∈ s.1.constructing
  · rw [if_pos hkey] at h
    cases h
    exact ⟨.refl, fun _ hr => by cases hr⟩
  · rw [if_neg hkey] at h
    rcases hm : d.multiplex with _ | _ <;> rcases hid : s.1.scopeOf? d.key with _ | id <;>
      simp only [hm, hid] at h
    · exact construct_builds hcalls hs (hd hkey fun _ => hid) h
    · obtain ⟨hsame, hreached⟩ := existing_reached d.title (hs.linked.singleton_live hid)
      rw [BuildM.onEngine_apply] at h
      cases h
      rw [hsame]
      exact ⟨.refl, hreached⟩
    · exact construct_builds hcalls hs (hd hkey fun hc => by rw [hm] at hc; cases hc) h
    · exact construct_builds hcalls hs (hd hkey fun hc => by rw [hm] at hc; cases hc) h

/-- **The scope of a definition.** -/
theorem processWith_builds (hcalls : Reaches P calls watch) (hs : Sound roots s.1)
    (hd : s.1.scopeOf? d.key = none → InstanceDeclares P calls watch d s)
    (h : processWith calls d s = some (r, s')) : Builds P roots s.1 s'.1 ∧ Reached s'.1 r := by
  unfold processWith at h
  rw [partial_bind, partial_get] at h
  simp only at h
  rcases hid : s.1.scopeOf? d.key with _ | id <;> simp only [hid] at h
  · exact processInstanceWith_builds hcalls hs (hd hid) h
  · obtain ⟨hsame, hreached⟩ := existing_reached d.title (hs.linked.singleton_live hid)
    rw [BuildM.onEngine_apply] at h
    cases h
    rw [hsame]
    exact ⟨.refl, hreached⟩

/-- Definitions of a library are reached as they should be, to any limit. -/
theorem calls_reaches (library : Library μ) (limit : Nat) :
    Reaches P (Engine.calls library limit) (Engine.watch P library limit) := by
  induction limit with
  | zero =>
    refine ⟨fun _ _ h => ?_, fun _ _ _ _ _ h => ?_⟩
    · cases h
    · cases h
  | succ limit ih =>
    refine ⟨fun hs hw h => processWith_builds ih hs hw h, fun hs hb hw => ?_⟩
    exact Script.run_builds ih _ _ _ hs hb hw

end Engine

end StyleBook
