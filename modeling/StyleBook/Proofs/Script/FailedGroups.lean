import StyleBook.Proofs.Script.Confined

namespace StyleBook

/-!
# What a group that fails leaves behind

The scope of a group is nested before the rules of the group are declared, and the rule for the
group is declared behind them. When a step between them fails, the scope stays where it is nested,
and nothing takes it out again: it is processed with the definition that declares the
group, if that one goes on.

* `Engine.Leftover` — what is different after a group that failed;
* `Spot.grouping_failed` — nothing else is, if no definition got a scope on the way;
* `Attempt.failed_group` — and what is left is processed with the definition;
* `failed_group_counts` — two definitions that differ in a failed group only.
-/

variable {μ : Type}

namespace Engine

/-- **What is left of a group that failed** in the scope `id`: one more nested scope, and what is
    inside of it. There is no rule for it. -/
structure Leftover (id : ScopeId) (e e' : Engine) : Prop where
  /-- The scope has one more nested scope, and is as it was otherwise. -/
  owner {s : Scope} : e.scope? id = some s →
    e'.scope? id = some { s with children := s.children ++ [e.nextScope] }
  /-- The scope of the group is there. -/
  nested : ∃ t, e'.scope? e.nextScope = some t ∧ t.owner = some id
  /-- All other scopes are as they were, and no others are new but those inside of the group's. -/
  elsewhere {k : ScopeId} : k ≠ id → ¬ e'.Inside e.nextScope k → e'.scope? k = e.scope? k
  /-- There are more scopes than before. -/
  more : e.scopes.length < e'.scopes.length
  /-- Nothing else is different but what was handed out and reported. -/
  declares : OnlyDeclares e e'

end Engine

namespace Spot

open BuildM
open Engine hiding onEngine changeEngine

variable {library : Library μ} {root : ScopeId} {roots : List ScopeId} {limit : Nat}
  {condition : GroupCondition} {body : Script μ}
  {next : Except Error RuleRef → Script μ} {b : Builder}
  {s s' : Engine × μ} {err : Error}

/-- A group fails where its rules do. -/
theorem grouping_error (hp : Placed root roots ⟨limit, .group condition body next, b, s⟩)
    (h : Script.grouping (calls library limit) condition body b s = some (.error err, s')) :
    body.run (calls library limit) ⟨s.1.nextScope, 0⟩ ((addNested b.scope s.1).2, s.2) =
      some (.error err, s') := by
  obtain ⟨child, e₁, hnest, hbuilds, hin⟩ :=
    addNested_builds (P := anything) hp.sound.linked hp.inside
  obtain ⟨hs₁, hx₁⟩ := (hbuilds roots).sound hp.sound
  cases addNested_ok hnest
  rw [hnest]
  unfold Script.grouping at h
  rw [partial_bind, BuildM.onEngine_apply, hnest] at h
  rcases partial_bind_eq_some h with ⟨_, s₂, h₂, h₃⟩ | ⟨_, h₂, herr⟩
  · -- The scope is there, so the rule for the group is declared without an error.
    obtain ⟨-, hx₂⟩ :=
      Builds.sound (Script.run_builds_anything (b := ⟨s.1.nextScope, 0⟩) (s := (e₁, s.2))
      (calls_build_anything library limit) body hs₁ hin _ s₂ h₂) hs₁
    obtain ⟨t, ht⟩ := (hx₂.inside (hx₁.inside hp.inside)).live
    rw [BuildM.onEngine_apply, addUnnamedRule_eq ht] at h₃
    cases h₃
  · cases herr
    exact h₂

/-- **A group that fails leaves its scope behind, and nothing else,** if no definition gets a scope
    on the way. -/
theorem grouping_failed (hp : Placed root roots ⟨limit, .group condition body next, b, s⟩)
    (hnone : TriesNothing library
      ⟨limit, body, ⟨s.1.nextScope, 0⟩, ((addNested b.scope s.1).2, s.2)⟩)
    (h : Script.grouping (calls library limit) condition body b s = some (.error err, s')) :
    Leftover b.scope s.1 s'.1 := by
  obtain ⟨t, ht⟩ := hp.inside.live
  obtain ⟨child, e₁, hnest, hbuilds, hin⟩ :=
    addNested_builds (P := anything) hp.sound.linked hp.inside
  obtain ⟨hs₁, -⟩ := (hbuilds roots).sound hp.sound
  cases addNested_ok hnest
  have hbody := grouping_error hp h
  have hnested := Confined.addNested hp.sound.linked ⟨t, ht⟩
  have hscope := fun k => scope?_addNested (k := k) hp.sound.linked ht
  have hgrown := grown_addNested hp.sound.linked ht
  rw [hnest] at hbody hnone hnested hscope hgrown
  -- The rules are declared in the nested scope, so nothing outside of it is changed.
  have hconfined : Confined s.1.nextScope e₁ s'.1 :=
    run_confined library limit body ⟨s.1.nextScope, 0⟩ (e₁, s.2) ⟨hs₁, hin⟩ hnone _ s' hbody
  obtain ⟨hs', -⟩ := Builds.sound (Script.run_builds_anything (b := ⟨s.1.nextScope, 0⟩)
    (s := (e₁, s.2)) (calls_build_anything library limit) body hs₁ hin _ s' hbody) hs₁
  have hlt : b.scope < s.1.nextScope := hp.sound.linked.lt_nextScope ht
  obtain ⟨u, hu, howner⟩ : ∃ u, s'.1.scope? s.1.nextScope = some u ∧ u.owner = some b.scope := by
    obtain ⟨u, hu, hhomed⟩ := hconfined.homes s.1.nextScope _ ((hscope _).trans (if_pos rfl))
    exact ⟨u, hu, hhomed.owner⟩
  refine ⟨fun {s₀} hs₀ => ?_, ⟨u, hu, howner⟩, fun {k} hk hout => ?_, ?_,
    trans_of OnlyDeclares hnested.declares hconfined.declares⟩
  · -- A scope is older than those inside of it.
    cases ht.symm.trans hs₀
    have hout : ¬ s'.1.Inside s.1.nextScope b.scope := fun hin =>
      absurd (hs'.linked.le_of_inside hin) (Nat.not_le.mpr hlt)
    rw [hconfined.elsewhere hout, hscope, if_neg hlt.ne, if_pos rfl]
  · have hnew : k ≠ s.1.nextScope := fun heq => hout (heq.symm ▸ .root hu)
    rw [hconfined.elsewhere hout, hscope, if_neg hnew, if_neg hk]
  · have hlength := hconfined.keys.length_le
    rw [hgrown.keys, List.length_append, List.length_singleton] at hlength
    simpa [Dict.keys] using hlength

end Spot

open Engine hiding onEngine changeEngine

/-- **What a failed group leaves is processed with the definition that declares it,** if that one
    goes on and ends. Whatever definitions are declaring, and wherever in its script the definition
    declares the group: when the group fails, its scope stays nested where the group was declared,
    and nothing else is different, if no definition got a scope on the way; and when the definition
    is processed, so is that scope. -/
theorem Attempt.failed_group {library : Library μ} {a : Attempt μ}
    {roots : List ScopeId} {limit : Nat}
    {condition : GroupCondition} {body : Script μ} {next : Except Error RuleRef → Script μ}
    {b : Builder} {s s₁ s' : Engine × μ} {err : Error} {id : ScopeId} (hs : Sound roots a.state.1)
    (hlater : Spot.Later library a.start ⟨limit, .group condition body next, b, s⟩)
    (hnone : Spot.TriesNothing library
      ⟨limit, body, ⟨s.1.nextScope, 0⟩, ((addNested b.scope s.1).2, s.2)⟩)
    (hfail : Script.grouping (calls library limit) condition body b s = some (.error err, s₁))
    (hdone : a.run library = some (.ok id, s')) :
    Leftover b.scope s.1 s₁.1 ∧
      ∃ o t, s'.1.scope? b.scope = some o ∧ s.1.nextScope ∈ o.children ∧
        s'.1.scope? s.1.nextScope = some t ∧ t.owner = some b.scope ∧ t.Settled := by
  obtain ⟨declared, s₂, hrun, hend⟩ := construct_cases hdone
  have hp := Attempt.placed hs
  obtain ⟨hq, -⟩ := hlater.runs homes_stepwise hp hrun
  have hleft := Spot.grouping_failed hq hnone hfail
  refine ⟨hleft, ?_⟩
  -- The script goes on behind the group, and keeps the scope of the group in its place.
  have hbehind : Spot.Later library a.start ⟨limit, next (.error err), b, s₁⟩ := by
    refine hlater.tail (.group ?_)
    unfold BuildM.attempt
    rw [hfail]
  obtain ⟨hq₁, r₃, s₃, hrest, hhomes⟩ := hbehind.runs homes_stepwise hp hrun
  have hhomes₁ := (next (.error err)).run_stepwise homes_stepwise.toScripted
    (calls_stepped homes_stepwise library limit) b s₁ hq₁.sound hq₁.inside _ _ hrest
  obtain ⟨hs₂, -⟩ := Builds.sound (Script.run_builds_anything (b := ⟨a.state.1.nextScope, 0⟩)
    (calls_build_anything library a.limit) a.definition.script hp.sound hp.inside _ s₂ hrun)
    hp.sound
  obtain ⟨u, hu, howner⟩ := hleft.nested
  obtain ⟨u₂, hu₂, hhomed⟩ := hhomes₁.trans hhomes _ u hu
  have hin : s₂.1.endConstruction.Inside a.state.1.nextScope s.1.nextScope := by
    have hin₁ : s₁.1.Inside a.state.1.nextScope s.1.nextScope := .nested hu howner hq₁.inside
    exact (Homes.inside (hhomes₁.trans hhomes) hin₁).of_owner fun hs => ⟨_, hs, rfl⟩
  rcases hend with ⟨_, _, -, hr, -⟩ | ⟨_, _, -, hr, -⟩ | ⟨-, -, hproc⟩
  · cases hr
  · cases hr
  · have hprocesses := hs₂.endConstruction.pending.processScope hs₂.endConstruction
    rw [hproc] at hprocesses
    obtain ⟨t, ht, hprogressed⟩ := hprocesses.progressed.scope (show
      s₂.1.endConstruction.scope? s.1.nextScope = some u₂ from hu₂)
    have ho : t.owner = some b.scope := hprogressed.owner.trans (hhomed.owner.trans howner)
    obtain ⟨-, o, hlive, hchild, -⟩ := hprocesses.linked.owner_child ht ho
    exact ⟨o, t, hlive, hchild, ht, ho, hprocesses.settled rfl hin ht⟩

/-- A library of one definition. -/
def cardLibrary (script : Script Unit) : Library Unit :=
    fun key => ⟨key, "Card", "card", false, script⟩

/-- A group that fails behind its first rule. What comes next does not depend on it. -/
def failingGroup : Script Unit :=
  .group (.media "print") (.add "body" (.cls .empty) fun _ => .fail .unknownScope) fun _ => .done

/-- The scope of a group that failed is processed with that of the definition. -/
theorem failed_group_processed : ∃ (s s₁ s' : Engine × Unit) (err : Error) (o t : Scope),
    Script.grouping (calls (cardLibrary failingGroup) 1) (.media "print")
        (.add "body" (.cls .empty) fun _ => .fail .unknownScope) ⟨1, 0⟩ s = some (.error err, s₁) ∧
      process (cardLibrary failingGroup) 1 0 (create {} .empty .initial, ()) = some (.ok 1, s') ∧
      Leftover 1 s.1 s₁.1 ∧ s'.1.scope? 1 = some o ∧ 2 ∈ o.children ∧ s'.1.scope? 2 = some t ∧
      t.owner = some 1 ∧ t.Settled := by
  -- The run of the group and that of the definition are decided; the general theorem says what is
  -- left.
  let a : Attempt Unit := ⟨1, cardLibrary failingGroup 0, (create {} .empty .initial, ())⟩
  have hgroup : ((Script.grouping (calls (cardLibrary failingGroup) 1) (.media "print")
      (.add "body" (.cls .empty) fun _ => .fail .unknownScope) ⟨1, 0⟩ a.start.state).any
        fun out => !out.1.isOk) = true := by decide +kernel
  have hprocess : ((process (cardLibrary failingGroup) 1 0 (create {} .empty .initial, ())).any
      fun out => out.1.toOption = some 1) = true := by decide +kernel
  obtain ⟨⟨r, s₁⟩, hfail, hr⟩ := (Option.any_eq_true _ _).mp hgroup
  obtain ⟨⟨r', s'⟩, hdone, hr'⟩ := (Option.any_eq_true _ _).mp hprocess
  rcases r with err | _
  · rcases r' with _ | id
    · cases hr'
    · obtain rfl : id = 1 := by simpa [Except.toOption] using hr'
      have hlater : Spot.Later (cardLibrary failingGroup) a.start ⟨1, .group (.media "print")
          (.add "body" (.cls .empty) fun _ => .fail .unknownScope) fun _ => .done, ⟨1, 0⟩,
            a.start.state⟩ := .refl
      obtain ⟨hleft, o, t, ho, hchild, ht, howner, hsettled⟩ :=
        Attempt.failed_group (a := a) (sound_create {} .empty .initial) hlater
          (Spot.triesNothing_of_script fun _ => trivial) hfail (process_construct rfl hdone)
      exact ⟨_, s₁, s', err, o, t, hfail, hdone, hleft, ho, hchild, ht, howner, hsettled⟩
  · cases hr

/-- **A failed group counts:** a definition that declares one differs from a definition that
    declares nothing in the number of scopes, and its scope in what is nested
    in it and in its names. -/
theorem failed_group_counts : ∃ (s s' : Engine × Unit) (t t' : Scope),
    process (cardLibrary failingGroup) 1 0 (create {} .empty .initial, ()) = some (.ok 1, s) ∧
      process (cardLibrary .done) 1 0 (create {} .empty .initial, ()) = some (.ok 1, s') ∧
      s.1.scopes.length = 2 ∧ s'.1.scopes.length = 1 ∧
      s.1.scope? 1 = some t ∧ t.children = [2] ∧ t.names = [("body", "card_body")] ∧
      s'.1.scope? 1 = some t' ∧ t'.children = [] ∧ t'.names = [] := by
  -- Both runs are decided as a whole, and compared.
  have hfailing : ((process (cardLibrary failingGroup) 1 0 (create {} .empty .initial, ())).any
      fun out => out.1.toOption = some 1 && out.2.1.scopes.length = 2 &&
        (out.2.1.scope? 1).any fun t => t.children = [2] && t.names = [("body", "card_body")]) =
          true := by decide +kernel
  have hnothing : ((process (cardLibrary .done) 1 0 (create {} .empty .initial, ())).any
      fun out => out.1.toOption = some 1 && out.2.1.scopes.length = 1 &&
        (out.2.1.scope? 1).any fun t => t.children = [] && t.names = []) = true := by decide +kernel
  obtain ⟨⟨r, s⟩, hrun, hp⟩ := (Option.any_eq_true _ _).mp hfailing
  obtain ⟨⟨r', s'⟩, hrun', hp'⟩ := (Option.any_eq_true _ _).mp hnothing
  simp only [Bool.and_eq_true, Option.any_eq_true, decide_eq_true_eq] at hp hp'
  obtain ⟨⟨hr, hlength⟩, t, ht, hchildren, hnames⟩ := hp
  obtain ⟨⟨hr', hlength'⟩, t', ht', hchildren', hnames'⟩ := hp'
  rcases r with _ | id
  · cases hr
  rcases r' with _ | id'
  · cases hr'
  obtain rfl : id = 1 := by simpa [Except.toOption] using hr
  obtain rfl : id' = 1 := by simpa [Except.toOption] using hr'
  exact ⟨s, s', t, t', hrun, hrun', hlength, hlength', ht, hchildren, hnames, ht',
    hchildren', hnames'⟩

end StyleBook
