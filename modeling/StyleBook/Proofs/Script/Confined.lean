import StyleBook.Proofs.Name.Slots
import StyleBook.Proofs.Script.FailedDefinitions

namespace StyleBook

/-!
# What is changed while no definition gets a scope

A script declares in its scope and nests new scopes in it. It may extend and use definitions that
have scopes. As long as it gives none a new scope, all that it changes is inside of the scope where
it declares, apart from what is counted and reported.

* `Engine.Confined` — a change of what is inside of a scope, and of nothing else;
* `Spot.run_confined` — so it is across a script that tries no definition;
* `Script.ReachesNothing` — a script without steps about other definitions, which tries none.
-/

variable {μ : Type}

namespace Engine

variable {e e' e'' : Engine} {id k : ScopeId}

/-- The engines differ in their scopes, in what was handed out to scopes and rules, and in what was
    reported, and in nothing else. -/
def OnlyDeclares (e e' : Engine) : Prop :=
  ∃ events, e' = { e with
    scopes := e'.scopes, nextScope := e'.nextScope, nextCell := e'.nextCell,
    ambient := { e.ambient with events := events ++ e.ambient.events } }

instance : IsPreorder Engine OnlyDeclares where
  refl _ := ⟨[], rfl⟩
  trans e e' e'' h h' := by
    obtain ⟨events, h⟩ := h
    obtain ⟨events', h'⟩ := h'
    refine ⟨events' ++ events, ?_⟩
    rw [h', h, List.append_assoc]

/-- **Nesting a scope.** -/
theorem addNested_eq {s : Scope} (hs : e.scope? id = some s) :
    addNested id e = (.ok e.nextScope, Engine.modifyScope id
      (fun s => { s with children := s.children ++ [e.nextScope] })
      (addScope { name := s.name, definition := s.definition, multiplex := false, owner := some id }
        e).2) := by
  unfold addNested
  rw [stateful_bind_ok (requireScope_some hs)]
  rfl

/-- A group is one more scope, nested in another one. -/
theorem grown_addNested {s : Scope} (hl : Linked e) (hs : e.scope? id = some s) :
    Grown (some id) e (addNested id e).2 := by
  rw [addNested_eq hs]
  exact grown_nested hl hs ⟨rfl, rfl, rfl, rfl, rfl, rfl, rfl⟩

/-- **Only what is inside of a scope is changed:** its rules and links, and those of scopes that are
    new there. -/
structure Confined (id : ScopeId) (e e' : Engine) : Prop where
  /-- Scopes stay where they are nested. -/
  homes : Homes e e'
  /-- New scopes come last. -/
  keys : e.scopes.keys <+: e'.scopes.keys
  /-- Elsewhere everything is as it was, and nothing is new. -/
  elsewhere {k : ScopeId} : ¬ e'.Inside id k → e'.scope? k = e.scope? k
  declares : OnlyDeclares e e'

namespace Confined

instance : IsPreorder Engine (Confined id) where
  refl e := ⟨.refl e, List.prefix_rfl, fun _ => rfl, refl_of OnlyDeclares e⟩
  trans _ _ _ h h' :=
    { homes := h.homes.trans h'.homes
      keys := h.keys.trans h'.keys
      elsewhere := fun hk =>
      (h'.elsewhere hk).trans (h.elsewhere fun hin => hk (h'.homes.inside hin))
      declares := trans_of OnlyDeclares h.declares h'.declares }

/-- The scope is changed, and places of names may be handed out. -/
theorem modify {f : Scope → Scope} (hf : ∀ s, (f s).owner = s.owner) (more : Nat) :
    Confined id e (Engine.modifyScope id f { e with nextCell := more }) where
  homes := by
    have hr : Rescoped (fun _ => Scope.Homed) { e with nextCell := more }
        (Engine.modifyScope id f { e with nextCell := more }) := .modifyScope fun s _ => ⟨hf s⟩
    -- The number of places is no matter of scopes.
    exact .rescoped ⟨hr.keys, hr.scope, hr.singletons, hr.nextScope⟩ fun _ _ _ hR => hR
  keys := by
    rw [keys_modifyScope]
  elsewhere {k} hk := by
    rw [scope?_modifyScope]
    split
    · next heq =>
      subst heq
      cases hs : scope? k { e with nextCell := more } with
      | none => exact hs.symm
      | some s => exact absurd (.root (scope?_modifyScope_self f hs)) hk
    · rfl
  declares := by
    refine ⟨[], ?_⟩
    unfold Engine.modifyScope
    split <;> rfl

/-- A report is confined to any scope. -/
theorem report (event : Event) (e : Engine) : Confined id e (e.report event) :=
  ⟨.refl e, List.prefix_rfl, fun _ => rfl, [event], rfl⟩

/-- Declaring a rule is confined to its scope. -/
theorem addRule (hid : ∃ s, e.scope? id = some s) (slot : String) (rule : Rule) :
    Confined id e (addRule id slot rule e).2 := by
  obtain ⟨s, hs⟩ := hid
  cases hslot : s.named.get? slot with
  | none =>
    rw [addRule_new hs hslot]
    refine .modify (fun _ => ?_) _
    rfl
  | some key =>
    rw [addRule_known hs hslot]
    refine trans_of (Confined id) (.modify (fun _ => ?_) e.nextCell) (.report _ _)
    rfl

/-- So is declaring one without a slot. -/
theorem addUnnamedRule (hid : ∃ s, e.scope? id = some s) (rule : Rule) :
    Confined id e (addUnnamedRule id rule e).2 := by
  obtain ⟨s, hs⟩ := hid
  rw [addUnnamedRule_eq hs]
  refine .modify (fun _ => ?_) _
  rfl

/-- One more scope is nested in the scope. -/
theorem addNested (hl : Linked e) (hid : ∃ s, e.scope? id = some s) :
    Confined id e (addNested id e).2 := by
  obtain ⟨s, hs⟩ := hid
  have hg := grown_addNested hl hs
  refine ⟨.nested hl fun _ _ => ⟨rfl⟩, hg.keys ▸ List.prefix_append _ _, fun {k} hk => ?_, [], ?_⟩
  · have hin : (Engine.addNested id e).2.Inside id id := .root (hg.nesting hs rfl)
    obtain ⟨u, hu, hfresh⟩ := hg.born
    have hnew : k ≠ e.nextScope := fun h => hk (h ▸ .nested hu hfresh.owner hin)
    have hne : k ≠ id := fun h => hk (h.symm ▸ hin)
    rw [scope?_addNested hl hs, if_neg hnew, if_neg hne]
  · rw [addNested_eq hs]
    unfold Engine.modifyScope
    split <;> rfl

/-- What is inside of a nested scope is inside of the scope that it is nested in. -/
theorem outer {child : ScopeId} (h : Confined child e e') (hin : e.Inside id child) :
    Confined id e e' :=
  { h with elsewhere := fun hk => h.elsewhere fun hc => hk (.trans (h.homes.inside hin) hc) }

end Confined

end Engine

namespace Spot

open BuildM
open Engine hiding onEngine changeEngine

variable {library : Library μ} {p q : Spot μ} {root : ScopeId} {roots : List ScopeId}
  {limit definition : Nat} {b : Builder} {s s' : Engine × μ}

/-- What is tried from the next spot on is tried from this one on. -/
theorem Next.tries (h : Next library p q) {a : Attempt μ} (hq : q.Tries library a) :
    p.Tries library a := by
  cases hq with
  | step later attempt => exact .step (.head h later) attempt
  | inner later attempt tries => exact .inner (.head h later) attempt tries

/-- **From here on no definition gets a new scope.** -/
def TriesNothing (library : Library μ) (p : Spot μ) : Prop := ∀ a, ¬ p.Tries library a

/-- What tries nothing tries nothing later. -/
theorem TriesNothing.next (h : p.TriesNothing library) (hnext : Next library p q) :
    q.TriesNothing library := fun a ha => h a (hnext.tries ha)

/-- Only what is inside of the scope of the builder is changed. -/
abbrev ConfinedState (b : Builder) (s s' : Engine × μ) : Prop := Confined b.scope s.1 s'.1

instance : IsPreorder (Engine × μ) (ConfinedState b) where
  refl s := refl_of (Confined b.scope) s.1
  trans _ _ _ := trans_of (Confined b.scope)

/-- A definition that the script reaches has a scope already, or is declaring. -/
theorem process_idle (hattempt : s.1.scopeOf? (library definition).key = none →
      (library definition).key ∈ s.1.constructing) {r : Except Error ScopeId}
    (h : (calls library (limit + 1)).process definition s = some (r, s')) : s' = s := by
  rcases processWith_cases h with ⟨-, -, rfl⟩ | ⟨hnew, h⟩
  · rfl
  · rcases processInstanceWith_cases h with ⟨-, rfl⟩ | ⟨-, -, -, rfl⟩ | ⟨hkey, -⟩
    · rfl
    · rfl
    · exact absurd (hattempt hnew) hkey

/-- **A script that tries no definition changes only what is inside of its scope.** -/
theorem run_confined (library : Library μ) (limit : Nat) (script : Script μ) (b : Builder)
    (s : Engine × μ) (hp : Placed root roots ⟨limit, script, b, s⟩)
    (hnone : TriesNothing library ⟨limit, script, b, s⟩) :
    Moves (ConfinedState b) (script.run (calls library limit) b) s := by
  -- The scripts of definitions that are extended have a lower limit.
  induction limit using Nat.strong_induction_on generalizing root roots script b s with
  | _ limit ihl =>
  induction script generalizing b s with
  | done => exact .pure _ s
  | fail err => exact .throw err s
  | add slot rule next ih =>
    exact .bind (moves_onEngine (Confined.addRule hp.inside.live slot rule)) fun r s₁ h₁ =>
      ih r b s₁ (hp.next library (.add h₁)) (hnone.next (.add h₁))
  | addUnnamed rule next ih =>
    exact .bind (moves_onEngine (Confined.addUnnamedRule hp.inside.live rule)) fun r s₁ h₁ =>
      ih r b s₁ (hp.next library (.addUnnamed h₁)) (hnone.next (.addUnnamed h₁))
  | find slot next ih => exact ih _ b s ⟨hp.sound, hp.inside⟩ (hnone.next .find)
  | scope next ih => exact ih _ b s ⟨hp.sound, hp.inside⟩ (hnone.next .scope)
  | extend definition next ih =>
    rw [Script.run_extend]
    refine .bind (moves_attempt ?_) fun answer s₁ h₁ =>
      ih answer b s₁ (hp.next library (.extend h₁)) (hnone.next (.extend h₁))
    cases limit with
    | zero => exact fun _ _ h => by cases h
    | succ limit =>
      have hidle : ∀ {r s₁}, (calls library (limit + 1)).process definition s = some (r, s₁) →
          s₁ = s :=
        process_idle fun hnew => by_contra fun hkey => hnone _ (.step .refl (.extend hnew hkey))
      unfold Script.extension
      refine .bind (fun r s₁ h₁ => ?_) fun base s₁ h₁ => ?_
      · exact hidle h₁ ▸ refl_of (ConfinedState b) s₁
      · cases hidle h₁
        have hbase : Moves (ConfinedState b) (Script.setBase (μ := μ) b base) s := by
          unfold Script.setBase
          split
          · refine moves_changeEngine (Confined.modify (fun _ => ?_) s.1.nextCell)
            rfl
          · exact .pure _ s
        refine .bind hbase fun _ s₂ h₂ => .bind ?_ fun _ s₃ _ => .pure _ s₃
        exact ihl limit (Nat.lt_succ_self _) (library definition).script
          { b with depth := b.depth + 1 } s₂ (hp.next library (.extended h₁ h₂))
          (hnone.next (.extended h₁ h₂))
  | use definition next ih =>
    rw [Script.run_use]
    refine .bind (moves_attempt ?_) fun answer s₁ h₁ =>
      ih answer b s₁ (hp.next library (.use h₁)) (hnone.next (.use h₁))
    cases limit with
    | zero => exact fun _ _ h => by cases h
    | succ limit =>
      have hidle : ∀ {r s₁}, (calls library (limit + 1)).process definition s = some (r, s₁) →
          s₁ = s :=
        process_idle fun hnew => by_contra fun hkey => hnone _ (.step .refl (.use hnew hkey))
      unfold Script.usage
      refine .bind (fun r s₁ h₁ => ?_) fun used s₁ h₁ => ?_
      · exact hidle h₁ ▸ refl_of (ConfinedState b) s₁
      · cases hidle h₁
        refine .bind (moves_changeEngine (Confined.modify (fun t => ?_) s.1.nextCell)) fun _ s₂ _ =>
          moves_onEngine ?_
        · split <;> rfl
        · rw [collectRefs_snd]
          exact refl_of (ConfinedState b) s₂
  | group condition body next ihb ih =>
    rw [Script.run_group]
    refine .bind (moves_attempt ?_) fun answer s₁ h₁ =>
      ih answer b s₁ (hp.next library (.group h₁)) (hnone.next (.group h₁))
    unfold Script.grouping
    refine .bind (moves_onEngine (Confined.addNested hp.sound.linked hp.inside.live))
      fun child s₁ h₁ => ?_
    have hbody := ihb ⟨child, 0⟩ s₁ (hp.next library (.grouped h₁)) (hnone.next (.grouped h₁))
    obtain ⟨u, hu⟩ := hp.inside.live
    obtain ⟨child', e₁, hnest, hbuilds, hchild⟩ :=
      addNested_builds (P := anything) hp.sound.linked (.root hu)
    rw [BuildM.onEngine_apply, hnest] at h₁
    cases h₁
    refine .bind (fun r s₂ h₂ => (hbody r s₂ h₂).outer hchild) fun _ s₂ h₂ => moves_onEngine ?_
    exact Confined.addUnnamedRule ((hbody _ s₂ h₂).homes.inside hchild).root_live _
  | nameOf cell next ih => exact ih _ b s ⟨hp.sound, hp.inside⟩ (hnone.next .nameOf)
  | report event next ih =>
    refine .bind (moves_changeEngine (Confined.report event s.1)) fun _ s₁ h₁ => ?_
    cases h₁
    exact ih b _ (hp.next library .report) (hnone.next .report)
  | look next ih => exact ih _ b s ⟨hp.sound, hp.inside⟩ (hnone.next .look)
  | remember change next ih =>
    intro r s' h
    exact ih b (s.1, change s.2) ⟨hp.sound, hp.inside⟩ (hnone.next .remember) r s' h

end Spot

/-- Neither the script nor those of its groups have a step about another definition. -/
def Script.ReachesNothing : Script μ → Prop
  | .done => True
  | .fail _ => True
  | .add _ _ next => ∀ r, (next r).ReachesNothing
  | .addUnnamed _ next => ∀ r, (next r).ReachesNothing
  | .find _ next => ∀ r, (next r).ReachesNothing
  | .scope next => ∀ id, (next id).ReachesNothing
  | .extend _ _ => False
  | .use _ _ => False
  | .group _ body next => body.ReachesNothing ∧ ∀ answer, (next answer).ReachesNothing
  | .nameOf _ next => ∀ name, (next name).ReachesNothing
  | .report _ next => next.ReachesNothing
  | .look next => ∀ memory, (next memory).ReachesNothing
  | .remember _ next => next.ReachesNothing

/-- It stays so wherever the script stands later. -/
theorem Spot.Next.reachesNothing {library : Library μ} {p q : Spot μ} (h : Next library p q)
    (hp : p.script.ReachesNothing) : q.script.ReachesNothing := by
  cases h with
  | add | addUnnamed | find | scope | nameOf | look => exact hp _
  | extend | extended | use => exact hp.elim
  | group => exact hp.2 _
  | grouped => exact hp.1
  | report | remember => exact hp

/-- **Such a script tries no definition.** -/
theorem Spot.triesNothing_of_script {library : Library μ} {p : Spot μ}
    (h : p.script.ReachesNothing) : p.TriesNothing library := by
  have hlater : ∀ {q}, Later library p q → q.script.ReachesNothing := fun hq => by
    induction hq with
    | refl => exact h
    | tail _ hnext ih => exact hnext.reachesNothing ih
  intro a ha
  obtain ⟨q, hq, b, hattempt⟩ : ∃ q, Later library p q ∧ ∃ b, q.Attempts library b := by
    cases ha with
    | step later attempt | inner later attempt _ => exact ⟨_, later, _, attempt⟩
  have hnone := hlater hq
  cases hattempt <;> exact hnone

end StyleBook
