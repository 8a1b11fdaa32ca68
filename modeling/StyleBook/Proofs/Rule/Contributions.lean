import StyleBook.Proofs.Name.Slots
import StyleBook.Proofs.Rule.Parents

namespace StyleBook

/-!
# What goes into merged stylesets

A merged styleset is put together from the stylesets that merging came upon: what was kept with a
rule, or what the rule itself declares. It came upon those rules only that it asked for, and it asks
for the parents of rules with which nothing was kept. Here parents may go round in circles, scopes
may be gone, and anything may be kept with any rules at the start.

* `Styleset.MadeOf` — a styleset is put together from others;
* `Engine.share`, `Engine.Asks` — what a rule has to give, and which rules it asks;
* `Engine.Inherited` — a styleset is put together for a rule from what it and those it asks give;
* `Engine.Accounted` — all that is kept is, from what was there at the start;
  `Engine.mergeWithin_accounted`, `Engine.processScope_accounted` — merging
  and processing see to it;
* `Engine.mergeVisiting` — merging with a stack of the rules that are being merged and a limit on
  how deep it goes; `Engine.mergeVisiting_eq` — a limit beyond the number of rules is never reached;
* `Engine.mergeRule_contributions` — how merging ends, and which properties it gives.
-/

/-! ### Stylesets that are put together -/

namespace Styleset

/-- **The styleset is put together from the parts:** it has their custom properties and dependents,
    one part after the other, and no property that none of them has. -/
structure MadeOf (s : Styleset) (parts : List Styleset) : Prop where
  custom : s.custom = parts.flatMap (·.custom)
  dependents : s.dependents = parts.flatMap (·.dependents)
  declared {name : String} : name ∈ Dict.keys s.properties →
    ∃ part ∈ parts, name ∈ Dict.keys part.properties

variable {s t : Styleset} {parts more : List Styleset}

theorem madeOf_empty : empty.MadeOf [] := ⟨rfl, rfl, nofun⟩

theorem madeOf_self (s : Styleset) : s.MadeOf [s] where
  custom := by simp
  dependents := by simp
  declared h := ⟨s, List.mem_singleton_self s, h⟩

/-- One styleset over another is put together from the parts of both. -/
theorem MadeOf.merge (hs : s.MadeOf parts) (ht : t.MadeOf more) : (s.merge t).MadeOf
    (parts ++ more) where
  custom := by rw [List.flatMap_append, ← hs.custom, ← ht.custom]; rfl
  dependents := by rw [List.flatMap_append, ← hs.dependents, ← ht.dependents]; rfl
  declared {name} h := by
    rcases Dict.mem_keys_foldl_insert.mp h with h | h
    · obtain ⟨part, hpart, hname⟩ := hs.declared h
      exact ⟨part, List.mem_append_left more hpart, hname⟩
    · obtain ⟨part, hpart, hname⟩ := ht.declared h
      exact ⟨part, List.mem_append_right parts hpart, hname⟩

/-- What the upper styleset declares is what both declare together. -/
theorem get?_merge (ht : (Dict.keys t.properties).Nodup) {name : String} {d : Declaration}
    (h : Dict.get? name t.properties = some d) :
    Dict.get? name (s.merge t).properties = some d := by
  show Dict.get? name (t.properties.foldl _ s.properties) = some d
  rw [Dict.get?_foldl_insert ht, h, Option.some_or]

end Styleset

namespace Engine

open Relation

variable {e e₀ e' : Engine} {r p : Place} {m : Styleset} {body : StyleBody} {rule rule₀ : Rule}
  {idle : List Place} {id : ScopeId} {key : Nat}

/-! ### What rules give -/

/-- What is kept with the rule. -/
def kept? (r : Place) (e : Engine) : Option Styleset := (e.rule? r.1 r.2).bind (·.merged)

/-- **What the rule gives:** what is kept with it or else what it declares, and nothing if it is not
    there or declares no styleset. -/
def share (e : Engine) (r : Place) : Styleset := ((e.rule? r.1 r.2).bind (·.styleset?)).getD .empty

/-- **The rule asks the other one,** which is a parent of it, as nothing is kept with the rule. -/
def Asks (e : Engine) (p r : Place) : Prop := e.kept? r = none ∧ e.Parent p r

/-- **The styleset is put together for the rule** from what other rules give that are asked for its
    sake, and at last from what the rule gives. -/
def Inherited (e : Engine) (r : Place) (m : Styleset) : Prop :=
  ∃ before : List Place, (∀ q ∈ before, TransGen e.Asks q r) ∧
    m.MadeOf ((before ++ [r]).map e.share)

theorem kept?_of_rule (h : e.rule? r.1 r.2 = some rule) : e.kept? r = rule.merged := by
  unfold kept?
  rw [h, Option.bind_some]

/-- A rule gives what is kept with it. -/
theorem share_of_kept (h : e.kept? r = some m) : e.share r = m := by
  obtain ⟨rule, hr, hm⟩ := Option.bind_eq_some_iff.mp h
  unfold share Rule.styleset?
  rw [hr, Option.bind_some, hm]
  rfl

/-- A rule with which nothing is kept gives what it declares. -/
theorem share_of_own (h : e.kept? r = none) :
    e.share r = ((e.body? r).map (·.styleset)).getD .empty := by
  unfold kept? at h
  unfold share body? Rule.styleset?
  cases hr : e.rule? r.1 r.2 with
  | none => rfl
  | some rule =>
    rw [hr, Option.bind_some] at h
    rw [Option.bind_some, Option.bind_some, h, Option.none_or]

/-- Only the rule itself gives something. -/
theorem inherited_share (e : Engine) (r : Place) : e.Inherited r (e.share r) :=
  ⟨[], nofun, Styleset.madeOf_self _⟩

/-- The rules that go into a styleset. -/
theorem Inherited.sources (h : e.Inherited r m) :
    ∃ sources : List Place, (∀ q ∈ sources, ReflTransGen e.Asks q r) ∧
      m.MadeOf (sources.map e.share) := by
  obtain ⟨before, hbefore, hm⟩ := h
  refine ⟨before ++ [r], fun q hq => ?_, hm⟩
  rcases List.mem_append.mp hq with hq | hq
  · exact (hbefore q hq).to_reflTransGen
  · rw [List.mem_singleton.mp hq]

/-! ### Merging -/

/-- **All that is kept is put together from what was there at the start.** Rules are as they were,
    but for what is kept with them now. -/
structure Accounted (e₀ e : Engine) : Prop where
  rules (id : ScopeId) (key : Nat) : Option.Rel Rule.Remerged (e₀.rule? id key) (e.rule? id key)
  kept {r : Place} {m : Styleset} : e.kept? r = some m → e₀.Inherited r m

namespace Accounted

theorem refl (e : Engine) : Accounted e e where
  rules id key := by
    cases e.rule? id key with
    | none => exact .none
    | some rule => exact .some (.inl rfl)
  kept {r m} h := share_of_kept h ▸ e.inherited_share r

/-- A step that leaves rules alone. -/
theorem of_rules (h : Accounted e₀ e) (hrules : ∀ id key, e'.rule? id key = e.rule? id key) :
    Accounted e₀ e' where
  rules id key := hrules id key ▸ h.rules id key
  kept {r m} hm := by
    refine h.kept ?_
    unfold kept? at hm ⊢
    rwa [← hrules]

/-- A rule was there at the start. -/
theorem found (h : Accounted e₀ e) (hr : e.rule? id key = some rule) :
    ∃ rule₀, e₀.rule? id key = some rule₀ ∧ rule₀.Remerged rule := by
  have hrel := h.rules id key
  rw [hr] at hrel
  cases hrule₀ : e₀.rule? id key with
  | none =>
    rw [hrule₀] at hrel
    cases hrel
  | some rule₀ =>
    rw [hrule₀] at hrel
    cases hrel with
    | some hR => exact ⟨rule₀, rfl, hR⟩

/-- A rule with which nothing is kept is the one that was there at the start. -/
theorem rule_of_unmerged (h : Accounted e₀ e) (hr : e.rule? id key = some rule)
    (hm : rule.merged = none) : e₀.rule? id key = some rule := by
  obtain ⟨rule₀, hrule₀, hR⟩ := h.found hr
  rcases hR with rfl | ⟨-, -, m, rfl⟩
  · exact hrule₀
  · cases hm

/-- What is not there was not there at the start. -/
theorem missing (h : Accounted e₀ e) (hr : e.rule? id key = none) : e₀.rule? id key = none := by
  have hrel := h.rules id key
  rw [hr] at hrel
  cases hrule₀ : e₀.rule? id key with
  | none => rfl
  | some rule₀ =>
    rw [hrule₀] at hrel
    cases hrel

/-- Keeping what is put together for a rule with it. -/
theorem setMerged (h : Accounted e₀ e) (hr₀ : e₀.rule? id key = some rule₀)
    (hnone : rule₀.merged = none) (hbody : rule₀.content.body?.isSome)
    (hm : e₀.Inherited (id, key) m) : Accounted e₀ (e.setMerged id key m) := by
  have hrel := h.rules id key
  -- The rule was not merged when merging began, nor now, since what is kept is never lost.
  rw [hr₀] at hrel
  cases hr : e.rule? id key with
  | none =>
    rw [hr] at hrel
    cases hrel
  | some rule =>
    rw [hr] at hrel
    cases hrel with
    | some hR =>
      refine ⟨fun id' key' => ?_, fun {r m'} hkept => ?_⟩
      · rw [rule?_setMerged hr]
        split
        · next hsame =>
          rw [hsame.1, hsame.2, hr₀]
          exact .some (hR.fill hnone hbody m)
        -- All other rules are as they were.
        · exact h.rules id' key'
      · unfold kept? at hkept
        rw [rule?_setMerged hr] at hkept
        split at hkept
        · next hsame =>
          cases hkept
          rwa [show r = (id, key) from Prod.ext hsame.1 hsame.2]
        · exact h.kept hkept

end Accounted

/-- Merging parents one after the other puts together what they inherit, if merging each of them
    does. -/
theorem mergeParents_accounted (parents : List RuleRef) {start : Styleset} (sources : List Place)
    (h : Accounted e₀ e) (hstart : start.MadeOf (sources.map e₀.share))
    (hparents : ∀ p ∈ parents, ∀ e, Accounted e₀ e →
      Accounted e₀ (mergeWithin idle p.scope p.key e).2 ∧
        e₀.Inherited p.place (mergeWithin idle p.scope p.key e).1) :
    Accounted e₀ (mergeParents idle parents start e).2 ∧
      ∃ more : List Place, (∀ q ∈ more, ∃ p ∈ parents, ReflTransGen e₀.Asks q p.place) ∧
        (mergeParents idle parents start e).1.MadeOf ((sources ++ more).map e₀.share) := by
  -- On the parents: the first one brings its sources, the rest bring theirs after them.
  induction parents generalizing start sources e with
  | nil => exact ⟨h, [], nofun, by rwa [List.append_nil]⟩
  | cons p rest ih =>
    obtain ⟨hfirst, hinherited⟩ := hparents p List.mem_cons_self e h
    obtain ⟨own, hown, hmade⟩ := hinherited.sources
    have hboth := hstart.merge hmade
    rw [← List.map_append] at hboth
    rw [mergeParents_cons]
    obtain ⟨hrest, more, hmore, hall⟩ := ih (sources ++ own) hfirst hboth
      fun q hq => hparents q (List.mem_cons_of_mem p hq)
    refine ⟨hrest, own ++ more, fun q hq => ?_, by rwa [← List.append_assoc]⟩
    rcases List.mem_append.mp hq with hq | hq
    · exact ⟨p, List.mem_cons_self, hown q hq⟩
    · obtain ⟨p', hp', hasks⟩ := hmore q hq
      exact ⟨p', List.mem_cons_of_mem p hp', hasks⟩

/-- **Merging puts together what a rule inherits,** and keeps nothing else. -/
theorem mergeWithin_accounted (idle : List Place) (id : ScopeId) (key : Nat)
    (h : Accounted e₀ e) :
    Accounted e₀ (mergeWithin idle id key e).2 ∧
      e₀.Inherited (id, key) (mergeWithin idle id key e).1 := by
  -- Each step to the parents takes a rule from `idle`; the engine changes on the way.
  induction hn : idle.length using Nat.strong_induction_on generalizing idle id key e with
  | _ n ih =>
    cases hr : e.rule? id key with
    | none =>
      have hshare : e₀.share (id, key) = .empty := by
        unfold share
        rw [h.missing hr]
        rfl
      rw [mergeWithin_missing hr]
      exact ⟨h.of_rules fun _ _ => rfl, hshare ▸ e₀.inherited_share _⟩
    | some rule =>
      cases hm : rule.merged with
      | some m =>
        rw [mergeWithin_known hr hm]
        exact ⟨h, h.kept ((kept?_of_rule (r := (id, key)) hr).trans hm)⟩
      | none =>
        have hr₀ := h.rule_of_unmerged hr hm
        have hkept : e₀.kept? (id, key) = none := (kept?_of_rule (r := (id, key)) hr₀).trans hm
        have hbody? : e₀.body? (id, key) = rule.content.body? := body?_of_rule hr₀
        cases hbody : rule.content.body? with
        | none =>
          have hshare : e₀.share (id, key) = .empty := by
            rw [share_of_own hkept, hbody?, hbody]
            rfl
          rw [mergeWithin_bodiless hr hm hbody]
          exact ⟨h, hshare ▸ e₀.inherited_share _⟩
        | some body =>
          rw [hbody] at hbody?
          have hshare : e₀.share (id, key) = body.styleset := by
            rw [share_of_own hkept, hbody?]
            rfl
          by_cases hidle : (id, key) ∈ idle
          · have hlt : (idle.erase (id, key)).length < n := by
              have := List.length_pos_of_mem hidle
              rw [List.length_erase_of_mem hidle]
              omega
            obtain ⟨hparents, before, hbefore, hmade⟩ := mergeParents_accounted body.parents []
              h Styleset.madeOf_empty fun p _ e he => ih _ hlt _ p.scope p.key he rfl
            have hinherited : e₀.Inherited (id, key)
                ((mergeParents (idle.erase (id, key)) body.parents .empty e).1.merge
                  body.styleset) := by
              refine ⟨before, fun q hq => ?_, ?_⟩
              · obtain ⟨p, hp, hasks⟩ := hbefore q hq
                exact .tail' hasks ⟨hkept, parent_of_mem hbody? hp⟩
              · have hboth := hmade.merge (Styleset.madeOf_self body.styleset)
                rw [List.nil_append] at hboth
                rwa [List.map_append, List.map_singleton, hshare]
            rw [mergeWithin_fresh hr hm hbody hidle]
            exact ⟨hparents.setMerged hr₀ hm (by rw [hbody]; rfl) hinherited, hinherited⟩
          · -- The rule is being merged already. It gives what it declares, and nothing is kept.
            rw [mergeWithin_cyclic hr hm hbody hidle]
            exact ⟨h.of_rules fun _ _ => rfl, hshare ▸ e₀.inherited_share _⟩

/-! ### The end of merging -/

/-- The merged styleset of a rule, while the rules in `visiting` are being merged; nothing, if
    parents lead `limit` rules further up. -/
def mergeVisiting : Nat → List Place → ScopeId → Nat → StateT Engine Option Styleset
  | 0, _, _, _ => fun _ => none
  | limit + 1, visiting, id, key => do
    match (← get).rule? id key with
    | none =>
      modify (·.report .danglingParent)
      return .empty
    | some rule =>
      match rule.merged, rule.content.body? with
      | some merged, _ => return merged
      | none, none => return .empty
      | none, some body =>
        if visiting.contains (id, key) then
          modify (·.report (.cyclicParent (rule.slot.getD "")))
          return body.styleset
        else
          let inherited ← body.parents.foldlM (fun merged parent => do
            return merged.merge
              (← mergeVisiting limit ((id, key) :: visiting) parent.scope parent.key))
            Styleset.empty
          let merged := inherited.merge body.styleset
          modify (·.setMerged id key merged)
          return merged

/-- Merging parents one after the other ends, if merging each of them does. -/
theorem foldlM_mergeVisiting (limit : Nat) (visiting idle : List Place) (parents : List RuleRef)
    (start : Styleset) (h : Accounted e₀ e) (hparents : ∀ p ∈ parents, ∀ e, Accounted e₀ e →
      mergeVisiting limit visiting p.scope p.key e = some (mergeWithin idle p.scope p.key e)) :
    (parents.foldlM (fun merged (parent : RuleRef) => do
      return merged.merge (← mergeVisiting limit visiting parent.scope parent.key)) start :
        StateT Engine Option Styleset) e = some (mergeParents idle parents start e) := by
  induction parents generalizing start e with
  | nil => rfl
  | cons p rest ih =>
    rw [mergeParents_cons, List.foldlM_cons]
    simp only [bind, StateT.bind, hparents p List.mem_cons_self e h, Option.bind_some, pure,
      StateT.pure]
    exact ih _ (mergeWithin_accounted idle p.scope p.key h).1
      fun q hq => hparents q (List.mem_cons_of_mem p hq)

/-- **A limit beyond the number of rules that are not being merged is never reached.** -/
theorem mergeVisiting_eq {limit : Nat} {visiting : List Place} (hlimit : idle.length < limit)
    (hnodup : idle.Nodup)
    (hidle : ∀ r, (e.rule? r.1 r.2).isSome → (r ∈ idle ↔ r ∉ visiting)) (id : ScopeId)
    (key : Nat) : mergeVisiting limit visiting id key e = some (mergeWithin idle id key e) := by
  -- On the limit. The rules being merged are those that are not idle, so both versions stop alike.
  induction limit generalizing idle visiting id key e with
  | zero => omega
  | succ limit ih =>
    rw [mergeVisiting]
    simp only [bind, StateT.bind, get, getThe, MonadStateOf.get, StateT.get, pure, Option.bind_some]
    cases hr : e.rule? id key with
    | none =>
      rw [mergeWithin_missing hr]
      rfl
    | some rule =>
      cases hm : rule.merged with
      | some m =>
        rw [mergeWithin_known hr hm]
        simp only [hm]
        rfl
      | none =>
        cases hbody : rule.content.body? with
        | none =>
          rw [mergeWithin_bodiless hr hm hbody]
          simp only [hm, hbody]
          rfl
        | some body =>
          have hmem := hidle (id, key) (by rw [hr]; rfl)
          simp only [hm, hbody]
          by_cases hvisiting : (id, key) ∈ visiting
          · rw [mergeWithin_cyclic hr hm hbody fun h => hmem.mp h hvisiting,
              if_pos (List.contains_iff_mem.mpr hvisiting)]
            rfl
          · have hin : (id, key) ∈ idle := hmem.mpr hvisiting
            rw [mergeWithin_fresh hr hm hbody hin,
              if_neg fun h => hvisiting (List.contains_iff_mem.mp h)]
            have hparents := foldlM_mergeVisiting limit ((id, key) :: visiting)
              (idle.erase (id, key)) body.parents .empty (.refl e) fun p _ e' he' => by
                refine ih ?_ (hnodup.erase _) (fun r hr' => ?_) p.scope p.key
                · have := List.length_pos_of_mem hin
                  rw [List.length_erase_of_mem hin]
                  omega
                · -- No rule has come in; the one that is merged now is not idle any more.
                  obtain ⟨rule', hr'⟩ := Option.isSome_iff_exists.mp hr'
                  obtain ⟨rule₀, hr₀, -⟩ := he'.found hr'
                  rw [hnodup.mem_erase_iff, List.mem_cons, hidle r (by rw [hr₀]; rfl), not_or]
            exact Option.bind_eq_some_iff.mpr ⟨_, hparents, rfl⟩

/-- The places of rules are apart, as the ids of scopes are. -/
theorem nodup_allRules (h : e.scopes.keys.Nodup) : e.allRules.Nodup := by
  unfold allRules
  rw [List.nodup_flatMap]
  refine ⟨fun entry _ => ?_, ?_⟩
  · exact (List.nodup_range).map fun _ _ heq => (Prod.ext_iff.mp heq).2
  · refine (List.pairwise_map.mp h).imp fun hne => ?_
    rw [Function.onFun, List.disjoint_left]
    intro r hr hr'
    obtain ⟨_, -, rfl⟩ := List.mem_map.mp hr
    obtain ⟨_, -, heq⟩ := List.mem_map.mp hr'
    exact hne (Prod.ext_iff.mp heq).1.symm

/-- **What merging a rule comes to,** with any graph of parents and anything kept with rules. It
    ends: with a stack of the rules that are being merged, a limit beyond the number of rules is
    never reached. If nothing was kept with the rule, each of its own properties is in the result,
    important or not as it is. Every property of the result is one of the rule, or of a rule above
    it, or it was kept with such a rule. -/
theorem mergeRule_contributions (h : e.scopes.keys.Nodup) (id : ScopeId) (key : Nat) :
    (∀ limit, e.allRules.length < limit →
      mergeVisiting limit [] id key e = some (mergeRule id key e)) ∧
    (∀ body, e.kept? (id, key) = none → e.body? (id, key) = some body →
      (Dict.keys body.styleset.properties).Nodup → ∀ name d,
        Dict.get? name body.styleset.properties = some d →
          Dict.get? name (mergeRule id key e).1.properties = some d) ∧
    (∀ name ∈ Dict.keys (mergeRule id key e).1.properties, ∃ q, ReflTransGen e.Asks q (id, key) ∧
      ((∃ m, e.kept? q = some m ∧ name ∈ Dict.keys m.properties) ∨
        ∃ body, e.kept? q = none ∧ e.body? q = some body ∧
          name ∈ Dict.keys body.styleset.properties)) := by
  -- The three parts: the limit, the rule's own properties, and the source of every property.
  refine ⟨fun limit hlimit => ?_, fun body hkept hbody hnodup name d hd => ?_, fun name hname => ?_⟩
  · refine mergeVisiting_eq hlimit (nodup_allRules h) (fun r hr => ?_) id key
    obtain ⟨rule, hr⟩ := Option.isSome_iff_exists.mp hr
    exact iff_of_true (mem_allRules hr) List.not_mem_nil
  · obtain ⟨rule, hr, hb⟩ := body?_eq_some_iff.mp hbody
    show Dict.get? name (mergeWithin e.allRules id key e).1.properties = some d
    rw [mergeWithin_fresh hr ((kept?_of_rule hr).symm.trans hkept) hb (mem_allRules hr)]
    exact Styleset.get?_merge hnodup hd
  · obtain ⟨sources, hsources, hmade⟩ :=
      (mergeWithin_accounted e.allRules id key (.refl e)).2.sources
    obtain ⟨part, hpart, hdeclared⟩ := hmade.declared hname
    obtain ⟨q, hq, rfl⟩ := List.mem_map.mp hpart
    refine ⟨q, hsources q hq, ?_⟩
    cases hkept : e.kept? q with
    | some m => exact .inl ⟨m, rfl, share_of_kept hkept ▸ hdeclared⟩
    | none =>
      rw [share_of_own hkept] at hdeclared
      cases hbody : e.body? q with
      | none =>
        rw [hbody] at hdeclared
        cases hdeclared
      | some body =>
        rw [hbody] at hdeclared
        exact .inr ⟨body, rfl, rfl, hdeclared⟩

/-- The handle of a class rule. -/
def classRef (scope : ScopeId) (key : Nat) : RuleRef := ⟨scope, key, .cls, "", .empty 0, none⟩

/-- An engine of two scopes: the first rule of the one inherits from itself, from a rule of the
    other one, which inherits from it, from a counter, and from a rule that is gone; the second rule
    of the other scope is merged already. -/
def tangledEngine : Engine :=
  let own (name : String) : Styleset :=
    ⟨[(name, ⟨.text name, true⟩)], [⟨.ofName 0 name .customProperty, none, .null⟩], []⟩
  let tangled := Rule.ofContent
    (.cls ⟨own "color", [classRef 1 0, classRef 2 0, classRef 1 1, classRef 9 0]⟩)
  let back := Rule.ofContent (.cls ⟨own "margin", [classRef 1 0, classRef 2 1]⟩)
  let known : Rule := { Rule.cls (own "width") with merged := some (own "height") }
  { create {} .empty .initial with
    scopes :=
      [(1,
          { name := "one", definition := "One", multiplex := false
            rules := [tangled, .counter], order := [0, 1] }),
        (2,
          { name := "two", definition := "Two", multiplex := false
            rules := [back, known], order := [0, 1] })] }

/-- In the tangle, merging ends within five steps up, the rule has its own color, and it has the
    height that was kept with a rule of the other scope. -/
theorem mergeRule_contributions_of_tangle :
    mergeVisiting 5 [] 1 0 tangledEngine = some (mergeRule 1 0 tangledEngine) ∧
      Dict.get? "color" (mergeRule 1 0 tangledEngine).1.properties = some ⟨.text "color", true⟩ ∧
      "height" ∈ Dict.keys (mergeRule 1 0 tangledEngine).1.properties ∧
      ∃ q, ReflTransGen tangledEngine.Asks q (1, 0) ∧
        ((∃ m, tangledEngine.kept? q = some m ∧ "height" ∈ Dict.keys m.properties) ∨
          ∃ body, tangledEngine.kept? q = none ∧ tangledEngine.body? q = some body ∧
            "height" ∈ Dict.keys body.styleset.properties) := by
  have hheight : "height" ∈ Dict.keys (mergeRule 1 0 tangledEngine).1.properties := by
    decide +kernel
  obtain ⟨hends, hown, hnames⟩ :=
    mergeRule_contributions (e := tangledEngine) (by decide) 1 0
  exact ⟨hends 5 (by decide), hown _ rfl rfl (by decide) "color" _ rfl, hheight, hnames _ hheight⟩

/-! ### Processing -/

/-- Rules are as they were when what is kept with one of them is kept once more. -/
theorem rule?_setMerged_kept (hr : e.rule? id key = some rule) (hm : rule.merged = some m)
    (id' : ScopeId) (key' : Nat) : (e.setMerged id key m).rule? id' key' = e.rule? id' key' := by
  rw [rule?_setMerged hr]
  split
  · next hsame => rw [hsame.1, hsame.2, hr, ← hm]
  · rfl

theorem mergeAt_accounted (id : ScopeId) (key : Nat) (h : Accounted e₀ e) :
    Accounted e₀ (mergeAt id key e).2 := by
  refine mergeAt_cases h fun rule body hr hbody => ?_
  -- The result is kept with the rule once more, where it has been kept already.
  obtain ⟨rule', hr', hm⟩ := mergeWithin_filled hr (by rw [hbody]; rfl) (mem_allRules hr)
  exact (mergeWithin_accounted e.allRules id key h).1.of_rules (rule?_setMerged_kept hr' hm)

/-- **Processing a scope keeps nothing else,** whether it fails or not. -/
theorem processScope_accounted (id : ScopeId) (e : Engine) : Accounted e (processScope id e).2 := by
  have hrescoped : ∀ {R : ScopeId → Scope → Scope → Prop} {e₁ e₂ : Engine}, Rescoped R e₁ e₂ →
      (∀ k s s', R k s s' → s'.rules = s.rules) → Accounted e e₁ → Accounted e e₂ :=
    fun hr hR hx => hx.of_rules (hr.rule?_eq hR)
  refine processWithin_steps (R := Sustains (Accounted e))
    (fun id key e₁ => ?_) (fun id key e₁ => mergeAt_accounted id key) (fun id e₁ => ?_)
    (fun id e₁ => ?_) (fun event e₁ hx => hx.of_rules fun _ _ => rfl) e.walkLimit id e (.refl e)
  · exact hrescoped (assignName_renamed id key e₁) fun _ _ _ hR => by rw [hR.eq_names]
  · exact hrescoped (R := fun _ s s' => s'.rules = s.rules) (.modifyScope fun _ _ => rfl)
      fun _ _ _ h => h
  · exact hrescoped (R := fun _ s s' => s'.rules = s.rules) (.modifyScope fun _ _ => rfl)
      fun _ _ _ h => h

end Engine

end StyleBook
