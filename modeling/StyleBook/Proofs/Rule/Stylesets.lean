import StyleBook.Proofs.Rule.Parents
import StyleBook.Proofs.Script.Runs

namespace StyleBook

/-!
# The stylesets of rules

Rules of processed scopes declare their effective stylesets, those that recursion on the graph of
parents gives. It matters neither in which order rules are declared nor in which they are merged.

Merged stylesets are kept with rules. They may be forgotten, all of them or some: where no cycle of
parents leads to, merging again gives what was kept.

* `RunUnder P` — a run in which each styleset is declared under `P`;
* `RunUnder.inherits` — if parents are where they may be, what is kept with rules is right between
  calls;
* `Engine.mergeAll_effective` — merging rules in any order, with anything kept or not, gives them
  their effective stylesets;
* `RunUnder.styleset_effective` — so does every run;
* `Engine.forgotten` — the engine without anything that merging has kept;
* `Engine.ArisesUnder.styleset_anew` — what is kept with a rule is what merging it anew gives, in
  whatever order rules are merged;
* `stylesets_of_circle_and_of_stale_parent` — this fails for a rule on a cycle, and for one whose
  parent was declared again after it was merged.
-/

/-! ### In any order -/

namespace Engine

variable {e e' e₀ : Engine} {r : Place} {rule : Rule}

/-- Merge the rules in the given places, one after the other. -/
def mergeAll (order : List Place) : EngineM Unit := forEach (fun r => mergeAt r.1 r.2) order

/-- The second engine has the stylesets and the parents of the first one. It may have forgotten what
    is kept with them, all of it or some. -/
structure Forgets (e e₀ : Engine) : Prop where
  body? (r : Place) : e₀.body? r = e.body? r
  kept {id key rule m} : e₀.rule? id key = some rule → rule.merged = some m →
    ∃ rule', e.rule? id key = some rule' ∧ rule'.merged = some m

/-- What is not forgotten is right. -/
theorem Forgets.truthful (h : Forgets e e₀) (ht : e.Truthful) : e₀.Truthful := by
  refine ⟨fun {id key rule m} hr hm => ?_⟩
  obtain ⟨rule', hr', hm'⟩ := h.kept hr hm
  obtain ⟨hsome, heff⟩ := ht.kept hr' hm'
  refine ⟨?_, fun v hv => heff v (hv.congr fun r => (h.body? r).symm)⟩
  rwa [← body?_of_rule (r := (id, key)) hr, h.body?, body?_of_rule (r := (id, key)) hr']

/-- A rule with which what is right is kept declares its effective styleset. -/
theorem Truthful.styleset_eq (ht : e.Truthful) (hr : e.rule? r.1 r.2 = some rule)
    (hm : rule.merged.isSome) {v : Styleset} (hv : e.Effective r v) :
    rule.styleset? = some v := by
  obtain ⟨m, hm⟩ := Option.isSome_iff_exists.mp hm
  unfold Rule.styleset?
  rw [hm, Option.some_or, (ht.kept hr hm).2 v hv]

/-- Merging rules keeps what is right, in whatever order. -/
theorem mergeAll_merges (ht : e.Truthful) (order : List Place) :
    Merges (fun _ => True) e (mergeAll order e).2 := by
  unfold mergeAll
  induction order generalizing e with
  | nil => exact .refl ht
  | cons r rest ih =>
    rw [forEach_mergeAt_cons fun r : Place => r]
    have hmerges : Merges (fun _ => True) e (mergeAt r.1 r.2 e).2 :=
      mergeAt_merges ht trivial (fun _ _ => trivial) r.2
    exact hmerges.trans (ih hmerges.truthful)

/-- **Rules can be merged in any order.** Each of them declares its
    effective styleset afterwards. -/
theorem mergeAll_effective (h : e.Acyclic) (hf : Forgets e e₀) (ht : e.Truthful)
    (order : List Place) (hmem : r ∈ order) (hbody : (e.body? r).isSome) :
    ∃ rule, (mergeAll order e₀).2.rule? r.1 r.2 = some rule ∧
      rule.styleset? = some (e.effective h r) := by
  have hmerges := mergeAll_merges (hf.truthful ht) order
  obtain ⟨body, hb⟩ := Option.isSome_iff_exists.mp hbody
  obtain ⟨rule₀, hr₀, hb₀⟩ := body?_eq_some_iff.mp ((hf.body? r).trans hb)
  obtain ⟨rule, hr, hm⟩ := forEach_mergeAt_filled (fun r : Place => r) order e₀ hmem hr₀
    (by rw [hb₀]; rfl)
  refine ⟨rule, hr, hmerges.truthful.styleset_eq hr hm ?_⟩
  exact (effective_spec h r).congr fun q => (hmerges.body? q).trans (hf.body? q)

end Engine

/-! ### Runs -/

variable {μ : Type} {P : Engine → ScopeId → StyleBody → Prop} {library : Library μ}

/-- **A run in which each styleset is declared under `P`.** -/
inductive RunUnder (P : Engine → ScopeId → StyleBody → Prop) (library : Library μ)
    (start : Engine × μ) : List (Request μ × Answer) → Engine × μ → Prop
  /-- Nothing is called. -/
  | start : RunUnder P library start [] start
  /-- One more call. -/
  | call {σ : Type} [Sink σ] {steps e m r} {s' : Session μ σ}
    (before : RunUnder P library start steps (e, m)) (request : Request μ) (sink : σ)
    (declares : request.Declares P library (e, m))
    (h : request.perform library ⟨e, m, sink⟩ = some (r, s')) :
    RunUnder P library start (steps ++ [(request, r)]) (s'.engine, s'.memory)

namespace RunUnder

variable {start s : Engine × μ} {steps : List (Request μ × Answer)}

/-- It is a run. -/
theorem run (h : RunUnder P library start steps s) : Run library start steps s := by
  induction h with
  | start => exact .start
  | call before request sink declares h ih => exact ih.call request sink h

end RunUnder

namespace Engine

/-- An engine without scopes has nothing to inherit. -/
theorem inherits_create (naming : NamingConfig) (catalog : Catalog) (ambient : Ambient) :
    Inherits (create naming catalog ambient) where
  truthful := ⟨fun hr => by cases hr⟩
  unmerged hs := by cases hs
  parents hbody := by cases hbody

/-- **Calls keep what is right with rules,** if the parents of those they declare are where they may
    be. -/
theorem Served.inherits {e e' : Engine} (h : Served Local e e') (hs : Sound [] e)
    (hi : Inherits e) : Inherits e' := by
  induction h with
  | builds h => exact h.inherits hs hi
  | reuses h =>
    refine hi.rescoped h fun k s s' hk hR => ?_
    have heq := hR.eq_users
    exact ⟨by rw [heq], by rw [heq], (hR.relinked (hs.settled hk)).settled⟩
  | renames h => exact hi.rescoped h fun _ _ _ _ hR => ⟨hR.rules, hR.owner, hR.relinked.settled⟩
  | trans first _ ih ih' => exact ih' (first.sound hs) (ih hs hi)

end Engine

namespace RunUnder

open Engine

variable {start s : Engine × μ} {steps : List (Request μ × Answer)}

/-- **Between calls what is kept with rules is right,** in runs in which parents are where they may
    be. -/
theorem inherits (h : RunUnder Local library start steps s) (hs : Sound [] start.1)
    (hi : Inherits start.1) : Inherits s.1 := by
  induction h with
  | start => exact hi
  | call before request sink declares h ih =>
    have hsound := before.run.sound hs
    exact ((Request.performed h).served hsound declares).inherits hsound ih

end RunUnder

namespace Engine

variable {ν : Type} {library' : Library ν} {e e' e₀ : Engine} {r : Place}

/-- **The engine arises in a run** in which each styleset is declared under `P`. -/
def ArisesUnder (P : Engine → ScopeId → StyleBody → Prop) (library : Library μ) (e : Engine) :
    Prop :=
  ∃ naming catalog ambient memory steps m,
    RunUnder P library (create naming catalog ambient, memory) steps (e, m)

namespace ArisesUnder

theorem sound (h : ArisesUnder P library e) : Sound [] e := by
  obtain ⟨naming, catalog, ambient, memory, steps, m, hrun⟩ := h
  exact hrun.run.sound (sound_create naming catalog ambient)

theorem inherits (h : ArisesUnder Local library e) : Inherits e := by
  obtain ⟨naming, catalog, ambient, memory, steps, m, hrun⟩ := h
  exact hrun.inherits (sound_create naming catalog ambient) (inherits_create naming catalog ambient)

/-- All rules with stylesets declare their effective ones. -/
theorem styleset_eq (h : ArisesUnder Local library e) {rule : Rule}
    (hr : e.rule? r.1 r.2 = some rule) (hbody : rule.content.body?.isSome) {v : Styleset}
    (hv : e.Effective r v) : rule.styleset? = some v := by
  obtain ⟨s, hs, hkey⟩ := rule?_eq_some_iff.mp hr
  have hm := h.sound.linked.merged hs (h.sound.settled hs) rule (List.mem_of_getElem? hkey) hbody
  exact h.inherits.truthful.styleset_eq hr hm hv

/-- Rules that are declared in other places, in another order, declare the same. -/
theorem styleset_rearranged (h' : ArisesUnder Local library' e') {place : Place → Place}
    {change : Styleset.Change} (hrearranged : Rearranged place change e e') {v : Styleset}
    (hv : e.Effective r v) (hbody : (e.body? r).isSome) :
    ∃ rule, e'.rule? (place r).1 (place r).2 = some rule ∧
      rule.styleset? = some (change.apply v) := by
  obtain ⟨body, hb⟩ := Option.isSome_iff_exists.mp hbody
  obtain ⟨body', hb', -⟩ := hrearranged.found hb
  obtain ⟨rule, hr, hcontent⟩ := body?_eq_some_iff.mp hb'
  exact ⟨rule, hr, h'.styleset_eq hr (by rw [hcontent]; rfl) (hv.rearranged hrearranged hbody)⟩

/-- **Rules declare their effective stylesets** after every run in which parents are where they may
    be, when no rule is its own ancestor. It matters neither in which order rules are merged, nor in
    which order and in which scopes they are declared. -/
theorem styleset_effective (h : ArisesUnder Local library e) (hacyclic : e.Acyclic) :
    (∀ (r : Place) (rule : Rule) (body : StyleBody),
      e.rule? r.1 r.2 = some rule → rule.content.body? = some body →
        rule.styleset? = some (e.effective hacyclic r) ∧
          e.effective hacyclic r =
            .merged (body.parents.map fun p => e.effective hacyclic p.place) body.styleset) ∧
    (∀ (e₀ : Engine) (order : List Place) (r : Place),
      e.Forgets e₀ → r ∈ order → (e.body? r).isSome →
        ∃ rule, (mergeAll order e₀).2.rule? r.1 r.2 = some rule ∧
          rule.styleset? = some (e.effective hacyclic r)) ∧
    (∀ (ν : Type) (library' : Library ν) (e' : Engine) (place : Place → Place)
      (change : Styleset.Change) (r : Place),
      e'.ArisesUnder Local library' → Rearranged place change e e' → (e.body? r).isSome →
        ∃ rule, e'.rule? (place r).1 (place r).2 = some rule ∧
          rule.styleset? = some (change.apply (e.effective hacyclic r))) := by
  -- The reference without a cache is what all three parts are measured by.
  have hspec : ∀ r, e.Effective r (e.effective hacyclic r) := effective_spec hacyclic
  refine ⟨fun r rule body hr hbody => ⟨?_, ?_⟩, fun e₀ order r hforgets hmem hbody => ?_,
    fun ν library' e' place change r h' hrearranged hbody => ?_⟩
  · exact h.styleset_eq hr (by rw [hbody]; rfl) (hspec r)
  · exact effective_some hacyclic ((body?_of_rule hr).trans hbody)
  · exact mergeAll_effective hacyclic hforgets h.inherits.truthful order hmem hbody
  · exact h'.styleset_rearranged hrearranged (hspec r) hbody

end ArisesUnder

end Engine

/-! ### A sample -/

open Engine

/-- A library of one definition, with a rule, one that inherits from it, and one that inherits from
    both. -/
def familyLibrary : Library Unit := fun key =>
  ⟨key, "Family", "family", false,
    .add "oldest" (.cls (Styleset.empty.set "color" (.text "red"))) fun oldest =>
      .add "middle" ((Rule.cls (Styleset.empty.setImportant "margin" .null)).inherit [oldest])
        fun middle =>
          .add "youngest" ((Rule.cls (Styleset.empty.set "color" .null)).inherit [middle, oldest])
            fun _ => .done⟩

/-- The definition declares its rules under those it has declared before. -/
theorem familyLibrary_local (limit key : Nat) (s : Engine × Unit) :
    (Request.process limit key).Declares Local familyLibrary s := by
  intro _ _ _
  refine ⟨fun body hb => ?_, fun oldest s₁ h₁ => ⟨fun body hb => ?_, fun middle s₂ h₂ =>
    ⟨fun body hb => ?_, fun _ _ _ => trivial⟩⟩⟩
  · cases hb
    exact fun p hp => by cases hp
  · cases hb
    obtain ⟨hscope, hlive⟩ := addRule_ok (BuildM.onEngine_eq_some h₁)
    refine .of_own hlive fun p hp => ?_
    rw [List.mem_singleton.mp hp, hscope]
  · cases hb
    obtain ⟨hscope₁, -⟩ := addRule_ok (BuildM.onEngine_eq_some h₁)
    obtain ⟨hscope₂, hlive⟩ := addRule_ok (BuildM.onEngine_eq_some h₂)
    refine .of_own hlive fun p hp => ?_
    rcases List.mem_cons.mp hp with rfl | hp
    · exact hscope₂
    · rw [List.mem_singleton.mp hp, hscope₁]

/-- The youngest rule of the family has the declarations of both others, the important one too. -/
theorem styleset_of_youngest :
    ∃ e, ∃ hacyclic : e.Acyclic, ∃ rule, ArisesUnder Local familyLibrary e ∧
      e.rule? 1 2 = some rule ∧ rule.styleset? = some (e.effective hacyclic (1, 2)) ∧
      (e.effective hacyclic (1, 2)).properties.map (fun p => (p.1, p.2.important)) =
        [("color", false), ("margin", true)] := by
  have hout : ((Request.process 1 0).perform familyLibrary (freshSession TextSink.empty)).any
      (fun out => (out.2.engine.allRules.all fun r => ((out.2.engine.body? r).all fun body =>
          body.parents.all fun p => p.key < r.2)) &&
        (out.2.engine.rule? 1 2).any fun rule => rule.content.body?.isSome &&
          rule.styleset?.any fun styles => styles.properties.map
            (fun p => (p.1, p.2.important)) = [("color", false), ("margin", true)]) = true := by
    decide +kernel
  obtain ⟨⟨answer, s'⟩, hperform, hp⟩ := (Option.any_eq_true _ _).mp hout
  rw [Bool.and_eq_true, List.all_eq_true] at hp
  obtain ⟨hranked, hrule⟩ := hp
  obtain ⟨rule, hr, hp⟩ := (Option.any_eq_true _ _).mp hrule
  rw [Bool.and_eq_true] at hp
  obtain ⟨hbody, hp⟩ := hp
  obtain ⟨styles, hstyles, hproperties⟩ := (Option.any_eq_true _ _).mp hp
  obtain ⟨body, hbody⟩ := Option.isSome_iff_exists.mp hbody
  -- Parents have lower keys than their children, so no rule is its own ancestor.
  have hacyclic : s'.engine.Acyclic := by
    refine acyclic_of_rank Prod.snd fun r hr body hbody p hp => ?_
    have := hranked r hr
    rw [hbody, Option.all_some, List.all_eq_true] at this
    exact of_decide_eq_true (this p hp)
  have harises : ArisesUnder Local familyLibrary s'.engine :=
    ⟨{}, .empty, .initial, (), _, _, .call .start (.process 1 0) TextSink.empty
      (familyLibrary_local 1 0 _) hperform⟩
  have heffective := (harises.styleset_effective hacyclic).1 (1, 2) rule body hr hbody
  refine ⟨s'.engine, hacyclic, rule, harises, hr, heffective.1, ?_⟩
  rw [Option.some.inj (heffective.1.symm.trans hstyles)]
  exact of_decide_eq_true hproperties

/-! ### Merging rules anew -/

/-- The rule without its merged styleset. -/
def Rule.forgotten (r : Rule) : Rule := { r with merged := none }

/-- The scope without merged stylesets. -/
def Scope.forgotten (s : Scope) : Scope := { s with rules := s.rules.map Rule.forgotten }

namespace Engine

variable {e e₀ : Engine} {k : ScopeId} {r : Place} {rule : Rule}

/-- **The engine without anything that merging has kept.** -/
def forgotten (e : Engine) : Engine :=
  { e with scopes := e.scopes.map (Prod.map id Scope.forgotten) }

@[simp] theorem scope?_forgotten : e.forgotten.scope? k = (e.scope? k).map Scope.forgotten :=
  Dict.get?_map Scope.forgotten k e.scopes

@[simp] theorem rule?_forgotten (id : ScopeId) (key : Nat) :
    e.forgotten.rule? id key = (e.rule? id key).map Rule.forgotten := by
  unfold rule?
  rw [scope?_forgotten]
  cases e.scope? id with
  | none => rfl
  | some s => exact List.getElem?_map

/-- Stylesets and parents are not forgotten. -/
theorem forgets_forgotten (e : Engine) : e.Forgets e.forgotten where
  body? r := by
    unfold body?
    rw [rule?_forgotten]
    cases e.rule? r.1 r.2 <;> rfl
  kept hr hm := by
    rw [rule?_forgotten] at hr
    obtain ⟨rule, -, rfl⟩ := Option.map_eq_some_iff.mp hr
    cases hm

/-- Merging gives the effective styleset of a rule, whatever was forgotten, and whichever rules are
    merged before. -/
theorem mergeRule_effective (hf : e.Forgets e₀) (ht : e.Truthful) (order : List Place)
    {v : Styleset} (hv : e.Effective r v) : (mergeRule r.1 r.2 (mergeAll order e₀).2).1 = v := by
  have hmerges := mergeAll_merges (hf.truthful ht) order
  have hanew : ∀ v, (mergeAll order e₀).2.Effective r v →
      (mergeRule r.1 r.2 (mergeAll order e₀).2).1 = v :=
    (mergeRule_merges (A := fun _ => True) hmerges.truthful trivial (fun _ _ => trivial) r.2).2
  exact hanew v (hv.congr fun q => (hmerges.body? q).trans (hf.body? q))

variable {μ : Type} {library : Library μ}

/-- **What is kept with a rule is what merging it anew gives,** after every run in which parents are
    where they may be, if no cycle leads to the rule. It matters neither what was forgotten nor in
    which order rules are merged. -/
theorem ArisesUnder.styleset_anew (h : ArisesUnder Local library e)
    (hr : e.rule? r.1 r.2 = some rule) (hbody : rule.content.body?.isSome) (hfree : e.Unlooped r) :
    rule.merged = some (mergeRule r.1 r.2 e.forgotten).1 ∧
      ∀ e₀ order, e.Forgets e₀ →
        (mergeRule r.1 r.2 (mergeAll order e₀).2).1 = (mergeRule r.1 r.2 e.forgotten).1 := by
  obtain ⟨v, hv⟩ := hfree.effective
  have ht := h.inherits.truthful
  have hforgotten : (mergeRule r.1 r.2 e.forgotten).1 = v :=
    mergeRule_effective (forgets_forgotten e) ht [] hv
  obtain ⟨s, hs, hkey⟩ := rule?_eq_some_iff.mp hr
  obtain ⟨m, hm⟩ := Option.isSome_iff_exists.mp
    (h.sound.linked.merged hs (h.sound.settled hs) rule (List.mem_of_getElem? hkey) hbody)
  refine ⟨?_, fun e₀ order hf => ?_⟩
  · rw [hm, hforgotten, (ht.kept hr hm).2 v hv]
  · rw [hforgotten, mergeRule_effective hf ht order hv]

end Engine

/-! ### Samples -/

/-- The rule that inherits from both others has what merging it anew gives. -/
theorem styleset_of_youngest_anew : ∃ e rule, ArisesUnder Local familyLibrary e ∧
    e.rule? 1 2 = some rule ∧ rule.content.body?.isSome ∧ e.Unlooped (1, 2) ∧
      rule.merged = some (mergeRule 1 2 e.forgotten).1 := by
  have hout : ((Request.process 1 0).perform familyLibrary (freshSession TextSink.empty)).any
      (fun out => (out.2.engine.allRules.all fun r => ((out.2.engine.body? r).all fun body =>
          body.parents.all fun p => p.key < r.2)) &&
        (out.2.engine.rule? 1 2).any (·.content.body?.isSome)) = true := by decide +kernel
  obtain ⟨⟨answer, s'⟩, hperform, hp⟩ := (Option.any_eq_true _ _).mp hout
  rw [Bool.and_eq_true, List.all_eq_true] at hp
  obtain ⟨rule, hr, hbody⟩ := (Option.any_eq_true _ _).mp hp.2
  have hacyclic : s'.engine.Acyclic := by
    refine acyclic_of_rank Prod.snd fun r hr body hbody p hmem => ?_
    have hranked := hp.1 r hr
    rw [hbody, Option.all_some, List.all_eq_true] at hranked
    exact of_decide_eq_true (hranked p hmem)
  have harises : ArisesUnder Local familyLibrary s'.engine :=
    ⟨{}, .empty, .initial, (), _, _, .call .start (.process 1 0) TextSink.empty
      (familyLibrary_local 1 0 _) hperform⟩
  -- No rule is its own ancestor, so none above this one is.
  have hfree : s'.engine.Unlooped (1, 2) := fun q _ => hacyclic q
  exact ⟨s'.engine, rule, harises, hr, hbody, hfree,
    (harises.styleset_anew (r := (1, 2)) hr hbody hfree).1⟩

/-- A library of one definition, with a rule, one that inherits from it, and the first one again,
    which now inherits from the second one. -/
def circlingLibrary : Library Unit := fun key =>
  ⟨key, "Circle", "circle", false,
    .add "first" (.cls .empty) fun first =>
      .add "second" ((Rule.cls (Styleset.empty.set "height" .null)).inherit [first]) fun second =>
        .add "first" ((Rule.cls (Styleset.empty.set "width" .null)).inherit [second])
          fun _ => .done⟩

/-- The definition declares its rules under those it has declared before. -/
theorem circlingLibrary_local (limit key : Nat) (s : Engine × Unit) :
    (Request.process limit key).Declares Local circlingLibrary s := by
  intro _ _ _
  refine ⟨fun body hb => ?_, fun first s₁ h₁ => ⟨fun body hb => ?_, fun second s₂ h₂ =>
    ⟨fun body hb => ?_, fun _ _ _ => trivial⟩⟩⟩
  · cases hb
    exact fun p hp => by cases hp
  · cases hb
    obtain ⟨hscope, hlive⟩ := addRule_ok (BuildM.onEngine_eq_some h₁)
    exact .of_own hlive fun p hp => List.mem_singleton.mp hp ▸ hscope
  · cases hb
    obtain ⟨hscope, hlive⟩ := addRule_ok (BuildM.onEngine_eq_some h₂)
    exact .of_own hlive fun p hp => List.mem_singleton.mp hp ▸ hscope

/-- A library of a definition with a rule that it declares twice, and of one that it uses in
    between, which inherits from that rule. -/
def staleLibrary : Library (Option RuleRef)
  | 0 => ⟨0, "Outer", "outer", false,
      .add "parent" (.cls (Styleset.empty.set "width" .null)) fun parent =>
        .remember (fun _ => some parent) <| .use 1 fun _ =>
          .add "parent" (.cls (Styleset.empty.set "height" .null)) fun _ => .done⟩
  | key => ⟨key, "Inner", "inner", false, .look fun parent =>
      .add "child" ((Rule.cls .empty).inherit parent.toList) fun _ => .done⟩

/-- **On a cycle it matters where merging starts,** and a rule keeps what it has inherited when its
    parent is declared again in a definition that was not processed yet. -/
theorem stylesets_of_circle_and_of_stale_parent :
    (∃ e rule, ArisesUnder Local circlingLibrary e ∧ (e.scope? 1).any (·.state = .processed) ∧
      e.rule? 1 1 = some rule ∧ rule.content.body?.isSome ∧
      rule.merged ≠ some (mergeRule 1 1 e.forgotten).1) ∧
    ∃ e rule, ArisesUnder anything staleLibrary e ∧ e.Acyclic ∧
      (e.scope? 2).any (·.state = .processed) ∧ e.rule? 2 0 = some rule ∧
      rule.content.body?.isSome ∧ rule.merged ≠ some (mergeRule 2 0 e.forgotten).1 := by
  -- The properties stand in another order, or are other ones.
  let differs (id : ScopeId) (key : Nat) (e : Engine) : Bool :=
    (e.scope? id).any (·.state = .processed) && (e.rule? id key).any fun rule =>
      rule.content.body?.isSome && rule.merged.all fun kept =>
        kept.properties.map Prod.fst ≠ (mergeRule id key e.forgotten).1.properties.map Prod.fst
  have hdiffers : ∀ {id key e}, differs id key e = true →
      (e.scope? id).any (·.state = .processed) ∧ ∃ rule, e.rule? id key = some rule ∧
        rule.content.body?.isSome ∧ rule.merged ≠ some (mergeRule id key e.forgotten).1 := by
    intro id key e h
    obtain ⟨hstate, hrule⟩ := (Bool.and_eq_true _ _).mp h
    obtain ⟨rule, hr, hp⟩ := (Option.any_eq_true _ _).mp hrule
    obtain ⟨hbody, hall⟩ := (Bool.and_eq_true _ _).mp hp
    refine ⟨hstate, rule, hr, hbody, fun heq => ?_⟩
    rw [heq, Option.all_some, decide_eq_true_eq] at hall
    exact hall rfl
  constructor
  · have hout : ((Request.process 1 0).perform circlingLibrary (freshSession TextSink.empty)).any
        (fun out => differs 1 1 out.2.engine) = true := by decide +kernel
    obtain ⟨⟨answer, s'⟩, hperform, hp⟩ := (Option.any_eq_true _ _).mp hout
    obtain ⟨hstate, rule, hr, hbody, hne⟩ := hdiffers hp
    exact ⟨s'.engine, rule, ⟨{}, .empty, .initial, (), _, _, .call .start (.process 1 0)
      TextSink.empty (circlingLibrary_local 1 0 _) hperform⟩, hstate, hr, hbody, hne⟩
  · have hout : ((Request.process 2 0).perform staleLibrary
        ⟨create {} .empty .initial, none, TextSink.empty⟩).any
        (fun out => (out.2.engine.allRules.all fun r => ((out.2.engine.body? r).all fun body =>
            body.parents.all fun p => p.scope < r.1)) && differs 2 0 out.2.engine) = true := by
      decide +kernel
    obtain ⟨⟨answer, s'⟩, hperform, hp⟩ := (Option.any_eq_true _ _).mp hout
    rw [Bool.and_eq_true, List.all_eq_true] at hp
    obtain ⟨hstate, rule, hr, hbody, hne⟩ := hdiffers hp.2
    have hacyclic : s'.engine.Acyclic := by
      refine acyclic_of_rank Prod.fst fun r hr body hbody p hmem => ?_
      have hranked := hp.1 r hr
      rw [hbody, Option.all_some, List.all_eq_true] at hranked
      exact of_decide_eq_true (hranked p hmem)
    exact ⟨s'.engine, rule, ⟨{}, .empty, .initial, none, _, _, .call .start (.process 2 0)
      TextSink.empty (Request.declares_anything _ _ _) hperform⟩, hacyclic, hstate, hr, hbody, hne⟩

end StyleBook
