import StyleBook.Proofs.Script.Spots
import StyleBook.Proofs.Script.Stepwise
import StyleBook.Proofs.Sink.Precedence

namespace StyleBook

/-!
# What a script uses

A script that uses a definition makes the scope it declares in reference that definition's scope.
That is its own scope, or that of the group in which it uses the definition; a scope that is nested
for a group is not activated along with the scope it is nested in.

* `Engine.Collects` — a step takes no reference away; `Engine.collects_stepwise` — no step of
  building does;
* `Engine.Uses` — what the script of a definition uses, and where;
* `Engine.process_references` — this is referenced when the definition is processed;
* `Session.used_first` — and its texts come first as long as the scope that references it is active.
-/

variable {μ : Type}

/-- The scope is changed, and keeps its references. -/
structure Scope.Collects (s s' : Scope) : Prop where
  references : s.references ⊆ s'.references

instance : IsPreorder Scope Scope.Collects where
  refl _ := ⟨List.Subset.refl _⟩
  trans _ _ _ h h' := ⟨List.Subset.trans h.references h'.references⟩

namespace Engine

variable {e e' : Engine} {k r id used : ScopeId} {roots : List ScopeId} {root : ScopeId}

/-! ### References come and stay -/

/-- No reference is taken away. -/
abbrev Collects : Engine → Engine → Prop := Carries fun _ => Scope.Collects

/-- What a scope references it goes on to reference. -/
theorem Collects.keeps (h : Collects e e') (hr : e.References k r) : e'.References k r := by
  obtain ⟨s, hs, hmem⟩ := hr
  obtain ⟨s', hs', hR⟩ := h k s hs
  exact ⟨s', hs', hR.references hmem⟩

/-- No step of a script takes a reference away. -/
theorem collects_scripted : Scripted (fun _ => Collects) (fun _ _ => Collects) where
  refl := .refl _
  trans := .trans
  report event := .rescoped (.report event) fun _ _ _ hR => hR
  addRule _ _ slot rule := .rescoped (addRule_declared _ slot rule _)
    fun _ _ _ hR => ⟨hR.references ▸ List.Subset.refl _⟩
  addUnnamedRule _ _ rule := .rescoped (addUnnamedRule_declared _ rule _)
    fun _ _ _ hR => ⟨hR.references ▸ List.Subset.refl _⟩
  setBase _ _ _ _ := .rescoped (setBase_declared (C := fun _ => False) _ _ _)
    fun _ _ _ hR => ⟨hR.references ▸ List.Subset.refl _⟩
  addReference _ _ _ := .rescoped (.modifyScope fun s _ => ⟨by
    split
    · exact List.Subset.refl _
    · exact List.subset_append_left _ _⟩) fun _ _ _ hR => hR
  process _ _ h := h
  declare h := h
  group hs _ h := .trans (.nested hs.linked fun _ _ => ⟨List.Subset.refl _⟩) h

/-- **No step of building takes a reference away.** -/
theorem collects_stepwise : Stepwise (fun _ => Collects) (fun _ _ => Collects) :=
  carries_stepwise collects_scripted (fun _ _ _ _ _ hR => hR) fun hs =>
    .rescoped (hs.pending.processScope hs).progressed
      fun _ _ _ hR => ⟨hR.references ▸ List.Subset.refl _⟩

/-! ### Using a definition -/

/-- A scope that uses another one references it. -/
theorem addReference_references (h : ∃ s, e.scope? id = some s) :
    (e.addReference id used).References id used := by
  obtain ⟨s, hs⟩ := h
  refine ⟨_, scope?_modifyScope_self _ hs, ?_⟩
  split
  · assumption
  · exact List.mem_append_right _ List.mem_cons_self

/-- Handles are to the rules of the scope. -/
theorem collectRefs_scope {refs : ScopeRefs} (h : collectRefs id e = (.ok refs, e')) :
    refs.scope = id := by
  unfold collectRefs at h
  cases hs : e.scope? id with
  | none =>
    rw [stateful_bind_error (requireScope_none hs)] at h
    cases h
  | some s =>
    rw [stateful_bind_ok (requireScope_some hs)] at h
    cases h
    rfl

/-- **A script that uses a definition** makes its scope reference that of the definition. -/
theorem usage_references {library : Library μ} {limit definition : Nat} {b : Builder}
    {s s' : Engine × μ} {refs : ScopeRefs} (hs : Sound (root :: roots) s.1)
    (hb : s.1.Inside root b.scope)
    (h : Script.usage (calls library limit) definition b s = some (.ok refs, s')) :
    s'.1.References b.scope refs.scope := by
  -- A usage reaches the definition, records the reference, and collects handles, which changes
  -- nothing.
  rcases partial_bind_eq_some h with ⟨used, s₁, h₁, h₂⟩ | ⟨_, -, hr⟩
  · obtain ⟨-, hx₁⟩ := ((calls_build_anything library limit).process hs trivial h₁).1.sound hs
    have hreferences : (s₁.1.addReference b.scope used).References b.scope used :=
      addReference_references (hx₁.inside hb).live
    rcases partial_bind_eq_some h₂ with ⟨_, s₂, h₃, h₄⟩ | ⟨_, -, hr⟩
    · cases h₃
      rw [BuildM.onEngine_apply] at h₄
      rcases hrun : collectRefs used (s₁.1.addReference b.scope used) with ⟨err | found, e₂⟩ <;>
        rw [hrun] at h₄ <;> cases h₄
      have hsame : (collectRefs used (s₁.1.addReference b.scope used)).2 = _ := collectRefs_snd _ _
      rw [hrun] at hsame
      rw [collectRefs_scope hrun]
      exact hsame ▸ hreferences
    · cases hr
  · cases hr

/-- **What the script of a definition uses,** and where, when it runs for a new scope: it stands,
    itself or in a definition that it extends, before a step that uses the definition of `used` in
    the scope `k`, its own or that of a group. -/
def Uses (library : Library μ) (limit key : Nat) (s : Engine × μ) (k used : ScopeId) : Prop :=
  ∃ limit' definition next b s₁ refs s₂,
    Spot.Later library
      ⟨limit, (library key).script, ⟨s.1.nextScope, 0⟩, (opened (library key) s.1, s.2)⟩
      ⟨limit', .use definition next, b, s₁⟩ ∧
    Script.usage (calls library limit') definition b s₁ = some (.ok refs, s₂) ∧
    b.scope = k ∧ refs.scope = used

/-- **What a script uses is referenced when its definition has been processed.** -/
theorem process_references {library : Library μ} {limit key : Nat} {s s' : Engine × μ}
    (hs : Sound roots s.1) (hnew : s.1.scopeOf? (library key).key = none)
    (h : process library limit key s = some (.ok id, s'))
    (huses : Uses library limit key s k used) :
    s'.1.References k used := by
  obtain ⟨limit', definition, next, b, s₁, refs, s₂, hlater, husage, rfl, rfl⟩ := huses
  have hconstruct := process_construct hnew h
  obtain ⟨declared, s₃, hscript, hend⟩ := construct_cases hconstruct
  have ho := opened_spec (library key) hs
  obtain ⟨t, ht, -⟩ := ho.sound.root_owner List.mem_cons_self
  obtain ⟨⟨hs₁, hb⟩, r₄, s₄, hrun, hrest⟩ := Spot.Later.runs collects_stepwise hlater
    ⟨ho.sound, .root ht⟩ hscript
  have hfirst := usage_references hs₁ hb husage
  -- What comes behind the use keeps the reference, and so does processing the scope.
  have hbehind : Collects s₂.1 s₄.1 := by
    have hattempt : BuildM.attempt (Script.usage (calls library limit') definition b) s₁ =
        some (.ok (.ok refs), s₂) := by
      unfold BuildM.attempt
      rw [husage]
    obtain ⟨hs₂, hx₂⟩ := Builds.sound (BuildM.moves_attempt (Script.usage_builds
      (calls_build_anything library limit') hs₁ hb trivial) _ s₂ hattempt) hs₁
    exact Spot.rest_stepwise collects_stepwise hrun hattempt hs₂ (hx₂.inside hb)
  obtain ⟨hs₃, -⟩ := Builds.sound (Script.run_builds_anything (b := ⟨s.1.nextScope, 0⟩)
    (calls_build_anything library limit) _ ho.sound (.root ht) _ s₃ hscript) ho.sound
  rcases hend with ⟨_, _, -, hr, -⟩ | ⟨_, _, -, hr, -⟩ | ⟨-, -, hproc⟩
  · cases hr
  · cases hr
  · have hprocesses := hs₃.endConstruction.pending.processScope hs₃.endConstruction
    rw [hproc] at hprocesses
    have hend : Collects s₂.1 s₃.1.endConstruction := hbehind.trans hrest
    have hprocessed : Collects s₃.1.endConstruction s'.1 := .rescoped hprocesses.progressed
      fun _ _ _ hR => ⟨hR.references ▸ List.Subset.refl _⟩
    exact Collects.keeps (hend.trans hprocessed) hfirst

end Engine

open Engine

variable {library : Library μ} {naming : NamingConfig} {catalog : Catalog} {ambient : Ambient}
  {memory : μ}

/-- **What a script uses comes first:** when a definition has been processed whose script uses a
    scope in the scope `k`, then at each time when `k` is active, so is the scope that is used, and
    its texts stand before those of `k`. The calls are balanced and share one sink, which was empty
    at first. -/
theorem Session.used_first {requests later : List (Request μ)}
    {before after : List (Request μ × Answer)} {limit key : Nat} {id k used : ScopeId} {e : Engine}
    {m : μ} {s₁ s₂ : Session μ TextSink}
    (h₁ : performAll library requests ⟨create naming catalog ambient, memory, .empty⟩ =
      some (before, s₁)) (hnew : s₁.engine.scopeOf? (library key).key = none)
    (h : process library limit key (s₁.engine, s₁.memory) = some (.ok id, (e, m)))
    (huses : Uses library limit key (s₁.engine, s₁.memory) k used)
    (h₂ : performAll library later ⟨e, m, s₁.sink⟩ = some (after, s₂))
    (hb : Balanced (before ++ (.process limit key, .ok (some id)) :: after))
    (hk : 0 < s₂.engine.usersOf k) :
    0 < s₂.engine.usersOf used ∧ s₂.sink.Behind k used := by
  have hs₁ : Sound [] s₁.engine :=
    (Run.performAll .start h₁).sound (sound_create naming catalog ambient)
  obtain ⟨hs, -⟩ := (process_builds hs₁ h).1.sound hs₁
  have hreferences : s₂.engine.References k used := by
    obtain ⟨t, ht, hr⟩ := process_references hs₁ hnew h huses
    obtain ⟨t', ht', hR⟩ := performAll_continued h₂ hs k t ht
    exact ⟨t', ht', by rwa [hR.eq_names]⟩
  exact references_first (performAll_append h₁ (performAll_process h h₂)) hb hreferences hk

/-- A definition that uses another one is processed and then activated. -/
theorem used_first_of_sample : ∃ steps s, Session.performAll sampleLibrary
      [.process 2 0, .activate 1] (freshSession TextSink.empty) = some (steps, s) ∧
    Uses sampleLibrary 2 0 (create {} .empty .initial, ()) 1 2 ∧ 0 < s.engine.usersOf 1 ∧
      0 < s.engine.usersOf 2 ∧ s.sink.Behind 1 2 := by
  have hout : ((Session.performAll sampleLibrary [.process 2 0, .activate 1]
      (freshSession TextSink.empty)).any fun out =>
        out.1.map (·.2.toOption) = [some 1, some 1].map some && 0 < out.2.engine.usersOf 1) =
          true := by decide +kernel
  have husage : ((Script.usage (calls sampleLibrary 2) 1 ⟨1, 0⟩
      (opened (sampleLibrary 0) (create {} .empty .initial), ())).any fun out =>
        out.1.toOption.any (·.scope = 2)) = true := by decide +kernel
  -- The run and the usage in it are decided; then the general theorem applies.
  obtain ⟨⟨steps, s⟩, hall, hp⟩ := (Option.any_eq_true _ _).mp hout
  simp only [Bool.and_eq_true, decide_eq_true_eq] at hp
  obtain ⟨⟨r, s₂⟩, hrun, hr⟩ := (Option.any_eq_true _ _).mp husage
  obtain ⟨refs, hok, hrefs⟩ := (Option.any_eq_true _ _).mp hr
  have huses : Uses sampleLibrary 2 0 (create {} .empty .initial, ()) 1 2 := by
    refine ⟨2, 1, _, ⟨1, 0⟩, _, refs, s₂, .refl, ?_, rfl, of_decide_eq_true hrefs⟩
    rw [hrun]
    cases r with
    | error err => cases hok
    | ok found => rw [Option.some.inj hok]
  obtain ⟨r₁, s₁, later, hfirst, hlater, rfl⟩ := Session.performAll_cons hall
  have hzip := Session.performAll_eq_zip hall hp.1
  obtain ⟨⟨-, rfl⟩, -⟩ := List.cons.inj hzip
  have hb : Balanced ((Request.process 2 0, .ok (some 1)) :: later) := by
    refine .of_not_deactivated fun step hstep id => ?_
    have hrequest := List.mem_map_of_mem (f := Prod.fst) hstep
    rw [Session.performAll_fst hall, List.mem_cons, List.mem_singleton] at hrequest
    obtain ⟨request, answer⟩ := step
    rcases hrequest with rfl | rfl <;> rfl
  obtain ⟨answer, hbuilding, hanswer⟩ := Session.map_eq_some hfirst
  obtain ⟨e, m, hprocess, rfl⟩ := Session.building_eq_some hbuilding
  cases answer with
  | error err => cases hanswer
  | ok id =>
    cases hanswer
    have hstart : Session.performAll sampleLibrary [] (freshSession TextSink.empty) =
        some ([], freshSession TextSink.empty) := rfl
    exact ⟨_, s, hall, huses, hp.2,
      Session.used_first hstart rfl hprocess huses hlater hb hp.2⟩

/-- A library of a definition with a rule, and one that uses it in a group. -/
def groupingLibrary : Library Unit
  | 0 => ⟨0, "Inner", "inner", false, .add "spin" (.animation []) fun _ => .done⟩
  | key => ⟨key, "Outer", "outer", false,
      .group (.media "print") (.use 0 fun _ => .done) fun _ => .done⟩

/-- **What is used in a group is not activated** along with the scope that declares the group, and
    its texts are not in the sink. -/
theorem unused_in_group : ∃ steps s t, Session.performAll groupingLibrary
      [.activateDefinition 2 1] (freshSession TextSink.empty) = some (steps, s) ∧
    Uses groupingLibrary 2 1 (create {} .empty .initial, ()) 2 3 ∧
      s.engine.scope? 2 = some t ∧ t.owner = some 1 ∧ 0 < s.engine.usersOf 1 ∧
      s.engine.usersOf 3 = 0 ∧ s.sink.css = "@media print\x7b\x7d" := by
  have hout : ((Session.performAll groupingLibrary [.activateDefinition 2 1]
      (freshSession TextSink.empty)).any fun out =>
        (out.2.engine.scope? 2).any (·.owner = some 1) && 0 < out.2.engine.usersOf 1 &&
          out.2.engine.usersOf 3 = 0 && out.2.sink.css = "@media print\x7b\x7d") = true := by
    decide +kernel
  have husage : ((BuildM.onEngine (addNested 1)
      (opened (groupingLibrary 1) (create {} .empty .initial), ())).bind fun nested =>
        (Script.usage (calls groupingLibrary 2) 0 ⟨2, 0⟩ nested.2).map fun out =>
          (nested.1.toOption, out.1.toOption.map (·.scope))) = some (some 2, some 3) := by
    decide +kernel
  -- The usage stands in the group that the script opens, so the reference is one of the group's
  -- scope.
  obtain ⟨⟨nested, s₁⟩, hnested, hmap⟩ := Option.bind_eq_some_iff.mp husage
  obtain ⟨⟨found, s₂⟩, hfound, hids⟩ := Option.map_eq_some_iff.mp hmap
  have huses : Uses groupingLibrary 2 1 (create {} .empty .initial, ()) 2 3 := by
    rw [Prod.mk.injEq] at hids
    rcases nested with err | child
    · cases hids.1
    · cases hids.1
      rcases found with err | refs
      · cases hids.2
      · exact ⟨2, 0, _, ⟨2, 0⟩, s₁, refs, s₂, .single (.grouped hnested), hfound, rfl,
          Option.some.inj hids.2⟩
  obtain ⟨⟨steps, s⟩, hall, hp⟩ := (Option.any_eq_true _ _).mp hout
  simp only [Bool.and_eq_true, decide_eq_true_eq] at hp
  obtain ⟨⟨⟨howner, hactive⟩, hnone⟩, hcss⟩ := hp
  obtain ⟨t, ht, ho⟩ := (Option.any_eq_true _ _).mp howner
  exact ⟨steps, s, t, hall, huses, ht, of_decide_eq_true ho, hactive, hnone, hcss⟩

end StyleBook
