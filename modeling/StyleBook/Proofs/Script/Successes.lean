import StyleBook.Proofs.Rule.Parents
import StyleBook.Proofs.Script.Onwards
import StyleBook.Proofs.Script.Spots
import StyleBook.Proofs.Script.Uniform

namespace StyleBook

/-!
# Runs in which no call fails

A script that runs to its end without a failed call has taken one step after the other, and each
definition that it reached had a scope or got one in the same way.

* `Spot.Fails` — a call of a script fails;
* `Proceeds` — what is done where no call fails, as a relation without limits;
* `Spot.run_proceeds`, `Engine.process_proceeds` — a script that ends well, none of whose calls
  fails, proceeds, and so does a definition;
* `Proceeds.ends` — what proceeds is what comes of a run, with a limit that is high enough;
* `Proceeds.reach_stepwise` — what holds across every step of building holds across a definition
  that is reached;
* `Proceeds.along` — what holds across every step, and across a definition that gets a scope, holds
  across what proceeds with definitions of a family only.
-/

variable {μ α β : Type}

/-- A step of the engine leaves the memory alone. -/
theorem BuildM.onEngine_eq_ok {c : EngineM α} {a : α} {e : Engine} {m : μ} {s' : Engine × μ}
    (h : onEngine c (e, m) = some (.ok a, s')) : ∃ e', c e = (.ok a, e') ∧ s' = (e', m) := by
  rw [onEngine_apply] at h
  obtain ⟨ha, rfl⟩ := Prod.mk.inj (Option.some.inj h)
  exact ⟨_, Prod.ext ha rfl, rfl⟩

/-- If a computation followed by another one succeeds, so do both. -/
theorem partial_bind_eq_ok {S : Type} {c : ExceptT Error (StateT S Option) α}
    {f : α → ExceptT Error (StateT S Option) β} {s s' : S} {b : β}
    (h : (c >>= f) s = some (.ok b, s')) :
    ∃ a s₁, c s = some (.ok a, s₁) ∧ f a s₁ = some (.ok b, s') := by
  rcases partial_bind_eq_some h with h | ⟨err, -, herr⟩
  · exact h
  · cases herr

open BuildM
open Engine hiding onEngine changeEngine

/-- **A call of the script fails** that it makes at the spot where it stands. -/
inductive Spot.Fails (library : Library μ) : Spot μ → Prop
  | extend {limit definition next b s err s'}
    (h : Script.extension (calls library limit) definition b s = some (.error err, s')) :
    Fails library ⟨limit, .extend definition next, b, s⟩
  | use {limit definition next b s err s'}
    (h : Script.usage (calls library limit) definition b s = some (.error err, s')) :
    Fails library ⟨limit, .use definition next, b, s⟩
  | group {limit condition body next b s err s'}
    (h : Script.grouping (calls library limit) condition body b s = some (.error err, s')) :
    Fails library ⟨limit, .group condition body next, b, s⟩

/-- What is to be done: a script is to declare, or a definition to be reached. -/
inductive Task (μ : Type)
  | declare (script : Script μ) (b : Builder)
  | reach (definition : Nat) (id : ScopeId)

/-- The task is done with a limit. -/
def Task.Ends (library : Library μ) (limit : Nat) (s s' : Engine × μ) : Task μ → Prop
  | .declare script b => script.run (calls library limit) b s = some (.ok (), s')
  | .reach definition id => (calls library limit).process definition s = some (.ok id, s')

/-- **What is done where no call fails.** -/
inductive Proceeds (library : Library μ) : Task μ → Engine × μ → Engine × μ → Prop
  | done {b s} : Proceeds library (.declare .done b) s s
  | add {slot rule next b e e₁ m s' r} (h : addRule b.scope slot rule e = (.ok r, e₁))
    (rest : Proceeds library (.declare (next r) b) (e₁, m) s') :
    Proceeds library (.declare (.add slot rule next) b) (e, m) s'
  | addUnnamed {rule next b e e₁ m s' r} (h : addUnnamedRule b.scope rule e = (.ok r, e₁))
    (rest : Proceeds library (.declare (next r) b) (e₁, m) s') :
    Proceeds library (.declare (.addUnnamed rule next) b) (e, m) s'
  | find {slot next b s s'}
    (rest : Proceeds library (.declare (next (s.1.findRule b.scope slot)) b) s s') :
    Proceeds library (.declare (.find slot next) b) s s'
  | scope {next b s s'} (rest : Proceeds library (.declare (next b.scope) b) s s') :
    Proceeds library (.declare (.scope next) b) s s'
  | extend {definition next b base s s₁ s₂ s₃ s'}
    (reached : Proceeds library (.reach definition base) s s₁)
    (h : Script.setBase b base s₁ = some (.ok (), s₂))
    (extended : Proceeds library
      (.declare (library definition).script { b with depth := b.depth + 1 }) s₂ s₃)
    (rest : Proceeds library (.declare (next (.ok base)) b) s₃ s') :
    Proceeds library (.declare (.extend definition next) b) s s'
  | use {definition next b used refs e m e₁ m₁ s'}
    (reached : Proceeds library (.reach definition used) (e, m) (e₁, m₁))
    (h : (collectRefs used (e₁.addReference b.scope used)).1 = .ok refs)
    (rest : Proceeds library (.declare (next (.ok refs)) b) (e₁.addReference b.scope used, m₁) s') :
    Proceeds library (.declare (.use definition next) b) (e, m) s'
  | group {condition body next b child r e m e₁ e₂ m₂ e₃ s'}
    (h : addNested b.scope e = (.ok child, e₁))
    (grouped : Proceeds library (.declare body ⟨child, 0⟩) (e₁, m) (e₂, m₂))
    (h' : addUnnamedRule b.scope (.ofContent (.group condition child)) e₂ = (.ok r, e₃))
    (rest : Proceeds library (.declare (next (.ok r)) b) (e₃, m₂) s') :
    Proceeds library (.declare (.group condition body next) b) (e, m) s'
  | nameOf {cell next b s s'}
      (rest : Proceeds library (.declare (next (cell.name? s.1.names)) b) s s') :
    Proceeds library (.declare (.nameOf cell next) b) s s'
  | report {event next b e m s'}
      (rest : Proceeds library (.declare next b) (e.report event, m) s') :
    Proceeds library (.declare (.report event next) b) (e, m) s'
  | look {next b s s'} (rest : Proceeds library (.declare (next s.2) b) s s') :
    Proceeds library (.declare (.look next) b) s s'
  | remember {change next b e m s'} (rest : Proceeds library (.declare next b) (e, change m) s') :
    Proceeds library (.declare (.remember change next) b) (e, m) s'
  /-- The definition has a scope. -/
  | known {definition id s} (hid : s.1.scopeOf? (library definition).key = some id)
    (hsettled : s.1.Settles id) : Proceeds library (.reach definition id) s s
  /-- The definition gets a scope. -/
  | new {definition e m e₁ m₁ e'} (hnew : e.scopeOf? (library definition).key = none)
    (hkey : (library definition).key ∉ e.constructing)
    (declared : Proceeds library (.declare (library definition).script ⟨e.nextScope, 0⟩)
      (opened (library definition) e, m) (e₁, m₁))
    (h : processScope e.nextScope e₁.endConstruction = (.ok (), e')) :
    Proceeds library (.reach definition e.nextScope) (e, m) (e', m₁)

/-! ### From runs -/

variable {library : Library μ} {limit definition : Nat} {s s' : Engine × μ}

namespace Engine

/-- The scope that a definition has is processed. -/
theorem existing_eq_ok {title : String} {id id' : ScopeId} {e : Engine}
    (h : (existing title id e).1 = .ok id') : id' = id ∧ e.Settles id := by
  unfold existing at h
  cases hs : e.scope? id with
  | none =>
    rw [stateful_bind_error (requireScope_none hs)] at h
    cases h
  | some t =>
    rw [stateful_bind_ok (requireScope_some hs)] at h
    by_cases hstate : t.state = .unprocessed
    · rw [if_pos hstate] at h
      cases h
    · rw [if_neg hstate] at h
      cases h
      exact ⟨rfl, t, hs, hstate⟩

/-- A definition that gets a scope: its script has run, and the scope was processed. -/
theorem construct_ok {calls : Calls μ} {d : Definition μ} {id : ScopeId}
    (h : construct calls d s = some (.ok id, s')) :
    ∃ s₁, d.script.run calls ⟨s.1.nextScope, 0⟩ (opened d s.1, s.2) = some (.ok (), s₁) ∧
      id = s.1.nextScope ∧ processScope s.1.nextScope s₁.1.endConstruction = (.ok (), s'.1) ∧
      s'.2 = s₁.2 := by
  obtain ⟨declared, s₁, hrun, hend⟩ := construct_cases h
  rw [construct_eq, hrun] at h
  rcases hend with ⟨_, _, -, hr, -⟩ | ⟨_, _, -, hr, -⟩ | ⟨rfl, hr, hproc⟩
  · cases hr
  · cases hr
  · cases hr
    replace h := (concluding_ok d s.1.nextScope (s₁.1.endConstruction, s₁.2)).symm.trans h
    simp only [hproc] at h
    exact ⟨s₁, hrun, rfl, hproc, (congrArg Prod.snd (Prod.mk.inj (Option.some.inj h)).2).symm⟩

/-- A definition with a scope is looked up. -/
theorem processWith_known {calls : Calls μ} {d : Definition μ} {id : ScopeId}
    (hid : s.1.scopeOf? d.key = some id) :
    processWith calls d s = BuildM.onEngine (existing d.title id) s := by
  unfold processWith
  rw [partial_bind, partial_get]
  simp only [hid]

/-- **A definition that is reached proceeds,** if its script does whenever it gets a scope. -/
theorem processWith_proceeds {id : ScopeId}
    (hscript : ∀ s₁, s.1.scopeOf? (library definition).key = none →
      (library definition).key ∉ s.1.constructing →
      (Attempt.start ⟨limit, library definition, s⟩).run library = some (.ok (), s₁) →
        Proceeds library (.declare (library definition).script ⟨s.1.nextScope, 0⟩)
          (opened (library definition) s.1, s.2) s₁)
    (h : processWith (calls library limit) (library definition) s = some (.ok id, s')) :
    Proceeds library (.reach definition id) s s' := by
  -- The definition has a scope, or it gets one: it cannot be declaring, because that would be an
  -- error.
  rcases processWith_cases h with ⟨known, hknown, rfl⟩ | ⟨hnew, hinstance⟩
  · have hexisting := BuildM.onEngine_eq_some ((processWith_known hknown).symm.trans h)
    obtain ⟨rfl, hsettled⟩ := existing_eq_ok (congrArg Prod.fst hexisting)
    exact .known hknown hsettled
  · rcases processInstanceWith_cases
      hinstance with ⟨hkey, -⟩ | ⟨_, hknown, -⟩ | ⟨hkey, -, hconstruct⟩
    · unfold processInstanceWith at hinstance
      rw [partial_bind, partial_get] at hinstance
      simp only [if_pos hkey] at hinstance
      cases hinstance
    · rw [hnew] at hknown
      cases hknown
    · obtain ⟨s₁, hrun, rfl, hproc, hmemory⟩ := construct_ok hconstruct
      obtain ⟨e', m'⟩ := s'
      obtain rfl : m' = s₁.2 := hmemory
      exact .new hnew hkey (hscript s₁ hnew hkey hrun) hproc

end Engine

/-- **A script that ends well proceeds,** if no call fails from where it stands. -/
theorem Spot.run_proceeds (limit : Nat) (script : Script μ) (b : Builder) (s : Engine × μ)
    (hcalls : ∀ q, Onwards library ⟨limit, script, b, s⟩ q → ¬ q.Fails library)
    (h : script.run (calls library limit) b s = some (.ok (), s')) :
    Proceeds library (.declare script b) s s' := by
  induction limit using Nat.strong_induction_on generalizing script b s s' with
  | _ limit ihl =>
  -- No call fails behind the next step either.
  have hnext : ∀ {script script' : Script μ} {limit' b b' s s₁},
      Next library ⟨limit, script, b, s⟩ ⟨limit', script', b', s₁⟩ →
      (∀ q, Onwards library ⟨limit, script, b, s⟩ q → ¬ q.Fails library) →
        ∀ q, Onwards library ⟨limit', script', b', s₁⟩ q → ¬ q.Fails library :=
    fun hn hcalls q hq => hcalls q (.head (.next hn) hq)
  induction script generalizing b s s' with
  | done => cases h; exact .done
  | fail err => cases h
  | add slot rule next ih =>
    obtain ⟨r, s₁, h₁, h₂⟩ := partial_bind_eq_ok h
    obtain ⟨e₁, hadd, rfl⟩ := onEngine_eq_ok h₁
    exact .add hadd (ih r b _ (hnext (.add h₁) hcalls) h₂)
  | addUnnamed rule next ih =>
    obtain ⟨r, s₁, h₁, h₂⟩ := partial_bind_eq_ok h
    obtain ⟨e₁, hadd, rfl⟩ := onEngine_eq_ok h₁
    exact .addUnnamed hadd (ih r b _ (hnext (.addUnnamed h₁) hcalls) h₂)
  | find slot next ih => exact .find (ih _ b s (hnext .find hcalls) h)
  | scope next ih => exact .scope (ih _ b s (hnext .scope hcalls) h)
  | extend definition next ih =>
    rw [Script.run_extend] at h
    obtain ⟨answer, s₁, h₁, h₂⟩ := partial_bind_eq_ok h
    obtain ⟨r, hextension, hr⟩ := attempt_eq_some h₁
    cases hr
    cases answer with
    | error err => exact absurd (.extend hextension) (hcalls _ .refl)
    | ok base =>
      obtain ⟨base, s₂, hprocess, hrest⟩ := partial_bind_eq_ok hextension
      obtain ⟨⟨⟩, s₃, hbase, hrest⟩ := partial_bind_eq_ok hrest
      obtain ⟨⟨⟩, s₄, hdeclare, hrest⟩ := partial_bind_eq_ok hrest
      cases hrest
      cases limit with
      | zero => cases hprocess
      | succ limit =>
        refine .extend (processWith_proceeds (fun s₁ hnew hkey hrun => ?_) hprocess) hbase ?_
          (ih _ b _ (hnext (.extend h₁) hcalls) h₂)
        · exact ihl limit limit.lt_succ_self _ _ _
            (fun q hq => hcalls q (.head (.reached (.extend hnew hkey)) hq)) hrun
        · exact ihl limit limit.lt_succ_self _ _ _
            (hnext (.extended hprocess hbase) hcalls) hdeclare
  | use definition next ih =>
    rw [Script.run_use] at h
    obtain ⟨answer, s₁, h₁, h₂⟩ := partial_bind_eq_ok h
    obtain ⟨r, husage, hr⟩ := attempt_eq_some h₁
    cases hr
    cases answer with
    | error err => exact absurd (.use husage) (hcalls _ .refl)
    | ok refs =>
      obtain ⟨used, ⟨e₂, m₂⟩, hprocess, hrest⟩ := partial_bind_eq_ok husage
      obtain ⟨⟨⟩, s₃, hreference, hrest⟩ := partial_bind_eq_ok hrest
      cases hreference
      obtain ⟨e₃, hrefs, rfl⟩ := onEngine_eq_ok hrest
      obtain rfl : e₂.addReference b.scope used = e₃ :=
        (collectRefs_snd used _).symm.trans (congrArg Prod.snd hrefs)
      cases limit with
      | zero => cases hprocess
      | succ limit =>
        refine .use (processWith_proceeds (fun s₁ hnew hkey hrun => ?_) hprocess)
          (congrArg Prod.fst hrefs) (ih _ b _ (hnext (.use h₁) hcalls) h₂)
        exact ihl limit limit.lt_succ_self _ _ _
          (fun q hq => hcalls q (.head (.reached (.use hnew hkey)) hq)) hrun
  | group condition body next ihb ih =>
    rw [Script.run_group] at h
    obtain ⟨answer, s₁, h₁, h₂⟩ := partial_bind_eq_ok h
    obtain ⟨r, hgrouping, hr⟩ := attempt_eq_some h₁
    cases hr
    cases answer with
    | error err => exact absurd (.group hgrouping) (hcalls _ .refl)
    | ok r =>
      obtain ⟨child, s₂, hnested, hrest⟩ := partial_bind_eq_ok hgrouping
      obtain ⟨e₂, hchild, rfl⟩ := onEngine_eq_ok hnested
      obtain ⟨⟨⟩, ⟨e₃, m₃⟩, hbody, hrule⟩ := partial_bind_eq_ok hrest
      obtain ⟨e₄, hadd, rfl⟩ := onEngine_eq_ok hrule
      exact .group hchild (ihb ⟨child, 0⟩ _ (hnext (.grouped hnested) hcalls) hbody) hadd
        (ih _ b _ (hnext (.group h₁) hcalls) h₂)
  | nameOf cell next ih => exact .nameOf (ih _ b s (hnext .nameOf hcalls) h)
  | report event next ih => exact .report (ih b _ (hnext .report hcalls) h)
  | look next ih => exact .look (ih _ b s (hnext .look hcalls) h)
  | remember change next ih => exact .remember (ih b _ (hnext .remember hcalls) h)

/-- **A definition whose scope is the answer proceeds,** if it has one, or no call of a script fails
    on the way. -/
theorem Engine.process_proceeds {id : ScopeId}
    (hcalls : s.1.scopeOf? (library definition).key = none →
      (library definition).key ∉ s.1.constructing →
        ∀ q, Spot.Onwards library (Attempt.start ⟨limit, library definition, s⟩) q →
        ¬ q.Fails library)
    (h : process library limit definition s = some (.ok id, s')) :
    Proceeds library (.reach definition id) s s' :=
  processWith_proceeds
    (fun _ hnew hkey hrun => Spot.run_proceeds limit _ _ _ (hcalls hnew hkey) hrun) h

/-! ### To runs -/

/-- A task that is done with a limit is done with a larger one. -/
theorem Task.Ends.mono {task : Task μ} {limit limit' : Nat} (h : task.Ends library limit s s')
    (hle : limit ≤ limit') : task.Ends library limit' s s' := by
  cases task with
  | declare script b => exact script.run_below (calls_below library hle) b s _ h
  | reach definition id => exact (calls_below library hle).process definition s _ h

namespace Engine

/-- A definition with a processed scope has it for an answer. -/
theorem existing_settled {title : String} {id : ScopeId} {e : Engine} (h : e.Settles id) :
    existing title id e = (.ok id, e) := by
  obtain ⟨t, ht, hsettled⟩ := h
  unfold existing
  rw [stateful_bind_ok (requireScope_some ht)]
  simp only [if_neg hsettled]
  rfl

/-- A definition without a scope that is not declaring gets one. -/
theorem processWith_new {calls : Calls μ} {d : Definition μ} (hnew : s.1.scopeOf? d.key = none)
    (hkey : d.key ∉ s.1.constructing) : processWith calls d s = construct calls d s := by
  unfold processWith processInstanceWith
  rw [partial_bind, partial_get]
  simp only [hnew]
  rw [partial_bind, partial_get]
  simp only [if_neg hkey, hnew]
  cases d.multiplex <;> rfl

end Engine

/-- The second computation runs where the first one stopped. -/
theorem partial_bind_ok {S : Type} {c : ExceptT Error (StateT S Option) α}
    {f : α → ExceptT Error (StateT S Option) β} {s s₁ : S} {a : α} (h : c s = some (.ok a, s₁)) :
    (c >>= f) s = f a s₁ := by
  rw [partial_bind, h]

/-- A computation of the engine succeeds in a script. -/
theorem BuildM.onEngine_ok {c : EngineM α} {a : α} {e e' : Engine} (h : c e = (.ok a, e')) (m : μ) :
    onEngine c (e, m) = some (.ok a, (e', m)) := by
  rw [onEngine_apply, h]

/-- What succeeds does so as an attempt. -/
theorem BuildM.attempt_ok {c : BuildM μ α} {a : α} (h : c s = some (.ok a, s')) :
    attempt c s = some (.ok (.ok a), s') := by
  unfold attempt
  rw [h]

/-- **What proceeds is what comes of a run** whose limit is high enough. -/
theorem Proceeds.ends {task : Task μ} (h : Proceeds library task s s') :
    ∃ limit, task.Ends library limit s s' := by
  -- Parts of a run come with limits of their own, and the largest of them serves for all, since
  -- larger limits change nothing that has ended.
  induction h with
  | done => exact ⟨0, rfl⟩
  | add hadd _ ih =>
    obtain ⟨limit, hrest⟩ := ih
    exact ⟨limit, (partial_bind_ok (onEngine_ok hadd _)).trans hrest⟩
  | addUnnamed hadd _ ih =>
    obtain ⟨limit, hrest⟩ := ih
    exact ⟨limit, (partial_bind_ok (onEngine_ok hadd _)).trans hrest⟩
  | find _ ih | scope _ ih | nameOf _ ih | report _ ih | look _ ih | remember _ ih => exact ih
  | @extend definition next b base s s₁ s₂ s₃ s' _ hbase _ _ ihr ihd ih =>
    obtain ⟨limit, hreach⟩ := ihr
    obtain ⟨limit', hdeclare⟩ := ihd
    obtain ⟨limit'', hrest⟩ := ih
    refine ⟨max limit (max limit' limit'') + 1, ?_⟩
    have hfirst : limit ≤ max limit (max limit' limit'') + 1 := by omega
    have hsecond : limit' ≤ max limit (max limit' limit'') := by omega
    have hthird : limit'' ≤ max limit (max limit' limit'') + 1 := by omega
    replace hreach := hreach.mono hfirst
    replace hdeclare := hdeclare.mono hsecond
    replace hrest := hrest.mono hthird
    refine ((congrFun (Script.run_extend definition next) _).trans
      (partial_bind_ok (attempt_ok ?_))).trans hrest
    exact ((partial_bind_ok hreach).trans <| (partial_bind_ok hbase).trans <|
      partial_bind_ok hdeclare).trans rfl
  | @use definition next b used refs e m e₁ m₁ s' _ hrefs _ ihr ih =>
    obtain ⟨limit, hreach⟩ := ihr
    obtain ⟨limit', hrest⟩ := ih
    refine ⟨max limit limit', ?_⟩
    replace hreach := hreach.mono (le_max_left limit limit')
    replace hrest := hrest.mono (le_max_right limit limit')
    refine ((congrFun (Script.run_use definition next) _).trans
      (partial_bind_ok (attempt_ok ?_))).trans hrest
    exact (partial_bind_ok hreach).trans <| onEngine_ok (Prod.ext hrefs (collectRefs_snd used _)) m₁
  | @group condition body next b child r e m e₁ e₂ m₂ e₃ s' hchild _ hrule _ ihb ih =>
    obtain ⟨limit, hbody⟩ := ihb
    obtain ⟨limit', hrest⟩ := ih
    refine ⟨max limit limit', ?_⟩
    replace hbody := hbody.mono (le_max_left limit limit')
    replace hrest := hrest.mono (le_max_right limit limit')
    refine ((congrFun (Script.run_group condition body next) _).trans
      (partial_bind_ok (attempt_ok ?_))).trans hrest
    exact (partial_bind_ok (onEngine_ok hchild m)).trans <|
      (partial_bind_ok hbody).trans (onEngine_ok hrule m₂)
  | @known definition id s hid hsettled =>
    exact ⟨1, (processWith_known hid).trans (onEngine_ok (existing_settled hsettled) s.2)⟩
  | @new definition e m e₁ m₁ e' hnew hkey _ hproc ih =>
    obtain ⟨limit, hdeclare⟩ := ih
    refine ⟨limit + 1, (processWith_new hnew hkey).trans ?_⟩
    rw [construct_eq, show _ = some (Except.ok (), (e₁, m₁)) from hdeclare]
    refine (concluding_ok _ _ _).trans ?_
    simp only [hproc]

namespace Proceeds

variable {Q : List ScopeId → Engine → Engine → Prop}
    {R : List ScopeId → Builder → Engine → Engine → Prop}
  {script : Script μ} {b : Builder} {root id : ScopeId} {roots : List ScopeId}

/-- What holds across every step of building holds across a definition that is reached. -/
theorem reach_stepwise (h : Proceeds library (.reach definition id) s s') (hR : Stepwise Q R)
    (hs : Sound roots s.1) : Q roots s.1 s'.1 := by
  obtain ⟨limit, hrun⟩ := h.ends
  exact (calls_stepped hR library limit).process hs hrun

/-- Engines stay sound while a script proceeds. -/
theorem declare_sound (h : Proceeds library (.declare script b) s s')
    (hs : Sound (root :: roots) s.1)
    (hb : s.1.Inside root b.scope) : Sound (root :: roots) s'.1 ∧ Extends s.1 s'.1 := by
  obtain ⟨limit, hrun⟩ := h.ends
  exact Builds.sound
    (script.run_builds_anything (calls_build_anything library limit) hs hb _ _ hrun) hs

/-- So they do while a definition is reached, whose scope is processed then. -/
theorem reach_sound (h : Proceeds library (.reach definition id) s s') (hs : Sound roots s.1) :
    Sound roots s'.1 ∧ Extends s.1 s'.1 ∧ s'.1.Ready id := by
  obtain ⟨limit, hrun⟩ := h.ends
  obtain ⟨hbuilds, hreached⟩ := (calls_build_anything library limit).process hs trivial hrun
  obtain ⟨hs', hx⟩ := hbuilds.sound hs
  exact ⟨hs', hx, hreached id rfl⟩

end Proceeds

/-! ### Across a family of definitions -/

section Along

variable {Q : List ScopeId → Engine → Engine → Prop}
    {R : List ScopeId → Builder → Engine → Engine → Prop}
  {keys : Nat → Prop}

/-- A relation that a task moves an engine along, with definitions of a family only. -/
def Task.Along (keys : Nat → Prop) (Q : List ScopeId → Engine → Engine → Prop)
    (R : List ScopeId → Builder → Engine → Engine → Prop) (s s' : Engine × μ) : Task μ → Prop
  | .declare script b => ∀ {root roots}, Sound (root :: roots) s.1 → s.1.Inside root b.scope →
    script.StaysIn keys → R (root :: roots) b s.1 s'.1
  | .reach definition _ => ∀ {roots}, keys definition → Sound roots s.1 → Q roots s.1 s'.1

/-- **What holds across every step, and across a definition that gets a scope,
    holds across a task.** -/
theorem Proceeds.along (hR : Scripted Q R) (hidle : ∀ {roots e}, Q roots e e)
    (hwithin : ∀ {k}, keys k → (library k).script.StaysIn keys)
    (hnew : ∀ {roots definition e e₁ e'}, keys definition → Sound roots e →
      e.scopeOf? (library definition).key = none → Sound (e.nextScope :: roots) e₁ →
      R (e.nextScope :: roots) ⟨e.nextScope, 0⟩ (opened (library definition) e) e₁ →
      processScope e.nextScope e₁.endConstruction = (.ok (), e') → Q roots e e')
    {task : Task μ} (h : Proceeds library task s s') : task.Along keys Q R s s' := by
  -- The induction is over how the task proceeds, with soundness and the builder's place carried
  -- along, as every clause of the relation asks for them.
  induction h with
  | done => exact fun _ _ _ => hR.refl
  | @add slot rule next b e e₁ m s' r hadd rest ih =>
    intro root roots hs hb hin
    have hbuilds : Builds anything (root :: roots) e (addRule b.scope slot rule e).2 :=
      addRule_builds hb (fun _ _ => trivial) slot
    have hstep := hR.addRule hs hb slot rule
    rw [hadd] at hbuilds hstep
    obtain ⟨hs₁, hx₁⟩ := hbuilds.sound hs
    exact hR.trans hstep (ih hs₁ (hx₁.inside hb) (hin r))
  | @addUnnamed rule next b e e₁ m s' r hadd rest ih =>
    intro root roots hs hb hin
    have hbuilds : Builds anything (root :: roots) e (addUnnamedRule b.scope rule e).2 :=
      addUnnamedRule_builds hb fun _ _ => trivial
    have hstep := hR.addUnnamedRule hs hb rule
    rw [hadd] at hbuilds hstep
    obtain ⟨hs₁, hx₁⟩ := hbuilds.sound hs
    exact hR.trans hstep (ih hs₁ (hx₁.inside hb) (hin r))
  | find _ ih | scope _ ih | nameOf _ ih | look _ ih => exact fun hs hb hin => ih hs hb (hin _)
  | @extend definition next b base s s₁ s₂ s₃ s' reached hbase extended rest ihr ihd ih =>
    intro root roots hs hb hin
    obtain ⟨hs₁, hx₁, hready⟩ := reached.reach_sound hs
    have hb₁ := hx₁.inside hb
    have hbuilds : Builds anything (root :: roots) s₁.1 s₂.1 :=
      Script.setBase_builds hb₁ base _ _ hbase
    obtain ⟨hs₂, hx₂⟩ := hbuilds.sound hs₁
    have hb₂ := hx₂.inside hb₁
    obtain ⟨hs₃, hx₃⟩ := extended.declare_sound hs₂ hb₂
    have hset : R (root :: roots) b s₁.1 s₂.1 := by
      unfold Script.setBase at hbase
      split at hbase
      · next hdepth =>
        cases hbase
        exact hR.setBase hs₁ hb₁ hdepth hready
      · cases hbase
        exact hR.refl
    exact hR.trans (hR.process hs hb (ihr hin.1 hs)) <| hR.trans hset <|
      hR.trans (hR.declare (ihd hs₂ hb₂ (hwithin hin.1))) (ih hs₃ (hx₃.inside hb₂) (hin.2 base))
  | @use definition next b used refs e m e₁ m₁ s' reached hrefs rest ihr ih =>
    intro root roots hs hb hin
    obtain ⟨hs₁, hx₁, hready⟩ := reached.reach_sound hs
    have hb₁ := hx₁.inside hb
    have hbuilds : Builds anything (root :: roots) e₁ (e₁.addReference b.scope used) :=
      .refer hb₁ hready (addReference_referenced b.scope used e₁)
    obtain ⟨hs₂, hx₂⟩ := hbuilds.sound hs₁
    exact hR.trans (hR.process hs hb (ihr hin.1 hs)) <|
      hR.trans (hR.addReference hs₁ hb₁ hready) (ih hs₂ (hx₂.inside hb₁) (hin.2 refs))
  | @group condition body next b child r e m e₁ e₂ m₂ e₃ s' hchild grouped hrule rest ihb ih =>
    intro root roots hs hb hin
    obtain ⟨child', e', hnest, hbuilds, hinside⟩ := addNested_builds (P := anything) hs.linked hb
    cases hchild.symm.trans hnest
    obtain ⟨hs₁, hx₁⟩ := (hbuilds roots).sound hs
    obtain ⟨hs₂, hx₂⟩ := grouped.declare_sound hs₁ hinside
    have hb₂ := hx₂.inside (hx₁.inside hb)
    have hbuilds₃ : Builds anything (root :: roots) e₂
        (addUnnamedRule b.scope (.ofContent (.group condition child)) e₂).2 :=
      addUnnamedRule_builds hb₂ fun _ _ => trivial
    have hstep := hR.addUnnamedRule hs₂ hb₂ (.ofContent (.group condition child))
    rw [hrule] at hbuilds₃ hstep
    obtain ⟨hs₃, hx₃⟩ := hbuilds₃.sound hs₂
    have hbody := ihb hs₁ hinside hin.1
    obtain rfl := addNested_ok hchild
    rw [show e₁ = (addNested b.scope e).2 by rw [hchild]] at hbody
    exact hR.trans (hR.group hs hb hbody) <| hR.trans hstep (ih hs₃ (hx₃.inside hb₂) (hin.2 r))
  | @report event next b e m s' rest ih =>
    intro root roots hs hb hin
    have hbuilds : Builds anything (root :: roots) e (e.report event) := .aside rfl rfl rfl
    obtain ⟨hs₁, hx₁⟩ := hbuilds.sound hs
    exact hR.trans (hR.report event) (ih hs₁ (hx₁.inside hb) hin)
  | remember _ ih => exact ih
  | known => exact fun _ _ => hidle
  | @new definition e m e₁ m₁ e' hnone hkey declared hproc ih =>
    intro roots hkeys hs
    have ho := opened_spec (library definition) hs
    obtain ⟨t, ht, -⟩ := ho.sound.root_owner List.mem_cons_self
    obtain ⟨hs₁, -⟩ := declared.declare_sound ho.sound (.root ht)
    exact hnew hkeys hs hnone hs₁ (ih ho.sound (.root ht) (hwithin hkeys)) hproc
end Along

end StyleBook
