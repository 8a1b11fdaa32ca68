import StyleBook.Proofs.Name.InheritedNames
import StyleBook.Proofs.Rule.RuleKeys
import StyleBook.Proofs.Script.SpentNames

namespace StyleBook

/-!
# Engines are intact between calls

The tables of an engine are changed one by one: while rules are declared and declared again, scopes
are nested, extended and used, processed, and discarded when their definition fails. Between calls
all of them fit together.

* `Scope.get?_buckets` — the rules of each kind; `Scope.buckets_congr` — they depend on kinds only
* `Engine.Sorted`, `Engine.sorted_survives` — the rules of a processed scope
  are sorted by their kinds
* `Scope.Intact`, `Engine.Intact` — what fits together in a scope, and in an engine
* `Run.intact` — so it is after any calls
-/

namespace Scope

/-! ### Rules by kind -/

variable {s s' : Scope} {kind : RuleKind}

/-- The keys by kind with one more key. -/
def intoBucket (s : Scope) (d : Dict RuleKind (List Nat)) (key : Nat) : Dict RuleKind (List Nat) :=
  match s.rule? key with
  | some rule => d.insert rule.kind ((d.get? rule.kind).getD [] ++ [key])
  | none => d

/-- The buckets of a scope are made of its rules, in their order. -/
theorem buckets_eq (s : Scope) : s.buckets = s.order.foldl s.intoBucket [] := rfl

/-- Whether the rule at a key is of a kind. -/
def isOfKind (s : Scope) (kind : RuleKind) (key : Nat) : Bool := (s.rule? key).any (·.kind = kind)

/-- A key goes into the bucket of the kind of its rule. -/
theorem get?_intoBucket (d : Dict RuleKind (List Nat)) (key : Nat) :
    (Dict.get? kind (s.intoBucket d key)).getD [] =
      (d.get? kind).getD [] ++ if s.isOfKind kind key then [key] else [] := by
  unfold intoBucket isOfKind
  cases hr : s.rule? key with
  | none => simp
  | some rule =>
    by_cases hkind : rule.kind = kind
    · subst hkind
      simp
    · have hne : kind ≠ rule.kind := fun heq => hkind heq.symm
      simp [Dict.get?_insert_of_ne hne, hkind]

/-- **The bucket of a kind** holds the keys of its rules, in order. -/
theorem get?_buckets (s : Scope) (kind : RuleKind) :
    (s.buckets.get? kind).getD [] = s.order.filter (s.isOfKind kind) := by
  have hfold : ∀ (keys : List Nat) (d : Dict RuleKind (List Nat)),
      (Dict.get? kind (keys.foldl s.intoBucket d)).getD [] =
        (d.get? kind).getD [] ++ keys.filter (s.isOfKind kind) := by
    intro keys
    induction keys with
    | nil => simp
    | cons key rest ih =>
      intro d
      rw [List.foldl_cons, ih, get?_intoBucket, List.append_assoc]
      congr 1
      by_cases hkey : s.isOfKind kind key <;> simp [hkey]
  exact (hfold s.order []).trans (List.nil_append _)

/-- Each kind has one bucket, and only kinds of rules have one. -/
theorem buckets_tidy (s : Scope) : s.buckets.keys.Nodup ∧
    ∀ kind keys, s.buckets.get? kind = some keys → keys ≠ [] := by
  -- The fold starts anywhere, since each rule adds to the buckets that are there by then.
  have hfold : ∀ (keys : List Nat) (d : Dict RuleKind (List Nat)),
      (d.keys.Nodup ∧ ∀ kind bucket, d.get? kind = some bucket → bucket ≠ []) →
        (Dict.keys (keys.foldl s.intoBucket d)).Nodup ∧
          ∀ kind bucket, Dict.get? kind (keys.foldl s.intoBucket d) = some bucket →
          bucket ≠ [] := by
    intro keys
    induction keys with
    | nil => exact fun d h => h
    | cons key rest ih =>
      intro d h
      refine ih _ ?_
      unfold intoBucket
      cases s.rule? key with
      | none => exact h
      | some rule =>
        refine ⟨Dict.nodup_keys_insert h.1 _ _, fun kind bucket hbucket => ?_⟩
        rw [Dict.get?_insert] at hbucket
        split at hbucket
        · cases hbucket
          simp
        · exact h.2 kind bucket hbucket
  exact hfold s.order [] ⟨List.nodup_nil, fun _ _ h => by cases h⟩

/-- **The buckets depend on the order and the kinds of the rules,** and on nothing else. -/
theorem buckets_congr (horder : s'.order = s.order)
    (h : s'.rules.map (·.kind) = s.rules.map (·.kind)) : s'.buckets = s.buckets := by
  have hstep : s'.intoBucket = s.intoBucket := by
    funext d key
    have hkey := congrArg (·[key]?) h
    simp only [List.getElem?_map] at hkey
    unfold intoBucket rule?
    cases hr : s.rules[key]? with
    | none =>
      rw [hr] at hkey
      rw [Option.map_eq_none_iff.mp hkey]
    | some rule =>
      rw [hr] at hkey
      obtain ⟨rule', hr', hkind⟩ := Option.map_eq_some_iff.mp hkey
      rw [hr']
      simp only [hkind]
  rw [buckets_eq, buckets_eq, horder, hstep]

/-- The rules are sorted by their kinds. -/
def Sorted (s : Scope) : Prop := s.byKind = s.buckets

/-- What was sorted is sorted. -/
structure KeepsSorted (s s' : Scope) : Prop where
  sorted : s.Sorted → s'.Sorted

instance : IsPreorder Scope KeepsSorted where
  refl _ := ⟨fun h => h⟩
  trans _ _ _ h h' := ⟨h'.sorted ∘ h.sorted⟩

/-- What was sorted is sorted, and the scope is processed only if it was. -/
structure Resorted (s s' : Scope) : Prop extends KeepsSorted s s' where
  settled : s'.Settled → s.Settled

instance : IsPreorder Scope Resorted where
  refl _ := ⟨⟨fun h => h⟩, fun h => h⟩
  trans _ _ _ h h' := ⟨⟨h'.sorted ∘ h.sorted⟩, h.settled ∘ h'.settled⟩

/-- The kinds of rules are kept, and what was sorted. -/
theorem Resorted.of_kinds (horder : s'.order = s.order)
    (hkinds : s'.rules.map (·.kind) = s.rules.map (·.kind))
    (hsorted : s'.byKind = s.byKind) (hsettled : s'.Settled → s.Settled) : Resorted s s' where
  sorted h := hsorted.trans (h.trans (buckets_congr horder hkinds).symm)
  settled := hsettled

theorem Renamed.resorted {P : Prop} (h : Renamed P s s') : Resorted s s' :=
  .of_kinds (by rw [h.eq_names]) (by rw [h.rules]) (by rw [h.eq_names]) h.relinked.settled.mp

theorem Remerged.resorted (h : Remerged s s') : Resorted s s' := by
  refine .of_kinds h.order (h.map_rules fun hmerged => ?_) (by rw [h.eq_rules]) fun hsettled => ?_
  · exact congrArg RuleContent.kind hmerged.content
  · rwa [h.eq_rules] at hsettled

end Scope

namespace Engine

variable {e e' : Engine} {id k : ScopeId}

/-! ### Processing sorts rules -/

/-- **The rules of processed scopes are sorted by their kinds.** -/
def Sorted (e : Engine) : Prop := ∀ k s, e.scope? k = some s → s.Settled → s.Sorted

/-- A step that leaves sorted what was sorted. -/
def KeepsSorted (e e' : Engine) : Prop := Sorted e → Sorted e'

instance : IsPreorder Engine KeepsSorted where
  refl _ h := h
  trans _ _ _ h h' := h' ∘ h

/-- Processed scopes stay sorted where all changes keep scopes sorted. -/
theorem Sorted.rescoped (h : Sorted e) (hr : Rescoped (fun _ => Scope.Resorted) e e') :
    Sorted e' := fun _ _ hs' hsettled => by
  obtain ⟨s, hs, hR⟩ := hr.back hs'
  exact hR.sorted (h _ s hs (hR.settled hsettled))

theorem assignName_resorted (id : ScopeId) (key : Nat) (e : Engine) :
    Rescoped (fun _ => Scope.Resorted) e (assignName id key e).2 :=
  (assignName_renamed id key e).mono fun _ _ _ _ hR => hR.resorted

theorem mergeAt_resorted (id : ScopeId) (key : Nat) (e : Engine) :
    Rescoped (fun _ => Scope.Resorted) e (mergeAt id key e).2 :=
  (mergeAt_remerged id key e).mono fun _ _ _ _ hR => hR.resorted

/-- What is sorted once stays so while scopes are processed. -/
theorem processWithin_keepsSorted (limit : Nat) (id : ScopeId) (e : Engine) :
    Rescoped (fun _ => Scope.KeepsSorted) e (processWithin limit id e).2 :=
  processWithin_steps
    (fun id key e => (assignName_resorted id key e).mono fun _ _ _ _ hR => hR.toKeepsSorted)
    (fun id key e => (mergeAt_resorted id key e).mono fun _ _ _ _ hR => hR.toKeepsSorted)
    (fun _ _ => .modifyScope fun _ _ => ⟨fun _ => rfl⟩)
    (fun _ _ => .modifyScope fun _ _ => ⟨fun hsorted => hsorted⟩) (fun event _ => .report event)
    limit id e

/-- The steps for the rules of a scope sort them, and keep sorted what was. -/
theorem processRules_sorted (id : ScopeId) (keys : List Nat) (e : Engine) :
    Rescoped (fun _ => Scope.Resorted) e (processRules id keys e).2 ∧
      ((processRules id keys e).1 = .ok () → ∀ s, (processRules id keys e).2.scope? id = some s →
        s.Sorted) := by
  have hnames : Rescoped (fun _ => Scope.Resorted) e (forEach (assignName id) keys e).2 :=
    forEach_steps keys fun key _ e' _ => assignName_resorted id key e'
  unfold processRules
  rw [stateful_bind]
  rcases hn : forEach (assignName id) keys e with ⟨err | _, e₁⟩ <;> rw [hn] at hnames
  -- A step that fails ends the processing, and nothing has been sorted by then.
  · exact ⟨hnames, fun hok => by cases hok⟩
  have hmerges : Rescoped (fun _ => Scope.Resorted) e₁ (forEach (mergeAt id) keys e₁).2 :=
    forEach_steps keys fun key _ e' _ => mergeAt_resorted id key e'
  simp only
  rw [stateful_bind]
  rcases hm : forEach (mergeAt id) keys e₁ with ⟨err | _, e₂⟩ <;> rw [hm] at hmerges
  · exact ⟨hnames.trans hmerges, fun hok => by cases hok⟩
  -- Sorting comes last, and takes the rules as they are.
  refine ⟨(hnames.trans hmerges).trans (.modifyScope fun _ _ => ⟨⟨fun _ => rfl⟩, fun h => h⟩),
    fun _ s hs => ?_⟩
  have hat := ((scope?_modifyScope _).trans (if_pos rfl)).symm.trans hs
  obtain ⟨t, -, rfl⟩ := Option.map_eq_some_iff.mp hat
  rfl

/-- **Processing a scope sorts its rules,** and those of the scopes nested in it. -/
theorem processWithin_sorted (limit : Nat) (id : ScopeId) (e : Engine) :
    Steps KeepsSorted (processWithin limit id) e := by
  induction limit generalizing id e with
  | zero => exact refl_of KeepsSorted e
  | succ limit ih =>
    rw [processWithin_succ]
    cases hs : e.scope? id with
    | none =>
      unfold Steps
      rw [stateful_bind_error (requireScope_none hs)]
      exact refl_of KeepsSorted e
    | some s =>
      unfold Steps
      rw [stateful_bind_ok (requireScope_some hs)]
      obtain ⟨hrules, hsorted⟩ := processRules_sorted id s.order e
      refine Steps.bind (R := KeepsSorted) (fun h => h.rescoped hrules) fun _ e₁ h₁ => ?_
      rw [h₁] at hsorted
      refine .bind (forEach_steps s.children fun c _ e' _ => ih c e') fun _ e₂ h₂ => ?_
      -- The rules of the scope stay sorted while those of its nested scopes are.
      have hchildren : Rescoped (fun _ => Scope.KeepsSorted) e₁
          (forEach (processWithin limit) s.children e₁).2 :=
        forEach_steps s.children fun c _ e' _ => processWithin_keepsSorted limit c e'
      rw [h₂] at hchildren
      refine .bind (.modify fun h => ?_) fun _ e₃ _ =>
        .modify fun h => h.rescoped (.report _)
      intro k t ht hsettled
      rw [scope?_modifyScope] at ht
      split at ht
      · next hk =>
        subst hk
        obtain ⟨u, hu, rfl⟩ := Option.map_eq_some_iff.mp ht
        obtain ⟨u₁, hu₁, hR⟩ := hchildren.back hu
        exact hR.sorted (hsorted rfl u₁ hu₁)
      · exact h k t ht hsettled

/-- **The rules of processed scopes stay sorted, whatever is built.** -/
theorem sorted_survives : Survives Sorted where
  unchanged h hr _ := h.rescoped (hr.mono fun _ s _ _ heq => heq ▸ refl_of Scope.Resorted s)
  redeclares h _ _ hr _ := fun k s hs' hsettled => h k s (hr.settled_back hs' hsettled) hsettled
  processed {id _ e _} h _ _ hrun := by
    have hsorted : Sorted (processScope id e).2 := processWithin_sorted e.walkLimit id e h
    rwa [hrun] at hsorted
  unprocessed {id _ e _ _ key} h hs _ hrun := by
    have hsorted : Sorted (processScope id e).2 := processWithin_sorted e.walkLimit id e h
    have hproc := hs.pending.processScope hs
    rw [hrun] at hsorted hproc
    exact fun k s hs' => hsorted k s ((abandon_abandoned hproc.linked id key).back hs').2
  failed {id _ _ key} h hs := fun k s hs' =>
    h k s ((abandon_abandoned hs.linked id key).back hs').2

/-- **So they do after calls.** -/
theorem sorted_callwise : Callwise (Preserves Sorted) := by
  refine sorted_survives.callwise (fun h hs hr _ k s' hs' _ => ?_) fun {e e' id slot r} h hrun => ?_
  · -- Before the call all scopes are processed.
    obtain ⟨s, hs₀, hR⟩ := hr.back hs'
    have hsorted := h k s hs₀ (hs.settled hs₀)
    rw [hR.eq_users]
    exact hsorted
  · have hrenamed := nameFor_renamed id slot e
    rw [hrun] at hrenamed
    exact h.rescoped (hrenamed.mono fun _ _ _ _ hR => hR.resorted)

end Engine

/-! ### What fits together -/

/-- **A scope is intact:** what it says about its rules, it says of each of them once. -/
structure Scope.Intact (s : Scope) : Prop where
  /-- The order has the key of each rule once. -/
  order_nodup : s.order.Nodup
  /-- It has no other keys. -/
  mem_order {key : Nat} : key ∈ s.order ↔ (s.rule? key).isSome
  /-- Rules are in this order. -/
  rules : s.order.filterMap s.rule? = s.rules
  /-- Each slot has one key. -/
  slots_nodup : s.named.keys.Nodup
  /-- It is that of a rule that was declared under the slot. -/
  slot {slot : String} {key : Nat} : s.named.get? slot = some key →
    ∃ rule, s.rule? key = some rule ∧ rule.slot = some slot
  /-- A key is that of one slot, or is listed once among those without a slot. -/
  perm : (s.named.values ++ s.unnamed).Perm s.order
  /-- Slots are in the order of their first declarations. -/
  named : s.named.values.Sublist s.order
  /-- So are the keys without a slot. -/
  unnamed : s.unnamed.Sublist s.order
  /-- Each kind has one list of keys. -/
  kinds_nodup : s.byKind.keys.Nodup
  /-- It has the keys of the rules of this kind, in order. -/
  kind (kind : RuleKind) : (s.byKind.get? kind).getD [] = s.order.filter (s.isOfKind kind)
  /-- No such list is empty. -/
  kind_ne_nil {kind : RuleKind} {keys : List Nat} : s.byKind.get? kind = some keys → keys ≠ []

/-- **An engine is intact between calls:** no definition is declaring, all links lead to scopes that
    are there, and each scope is processed and is intact itself. -/
structure Engine.Intact (e : Engine) : Prop where
  /-- No definition is declaring. -/
  idle : e.constructing = []
  /-- All scopes are processed. -/
  processed {k : ScopeId} {s : Scope} : e.scope? k = some s → s.state ≠ .unprocessed
  /-- The scope of a definition is there. -/
  singleton {key : Nat} {id : ScopeId} : e.singletons.get? key = some id → ∃ s, e.scope? id = some s
  /-- A scope that is referenced is there. -/
  reference {k r : ScopeId} {s : Scope} : e.scope? k = some s → r ∈ s.references →
    ∃ t, e.scope? r = some t
  /-- A scope that is extended is there. -/
  base {k b : ScopeId} {s : Scope} : e.scope? k = some s → s.base = some b → ∃ t,
    e.scope? b = some t
  /-- A scope that another one is nested in is there, and knows it. -/
  owner {k o : ScopeId} {s : Scope} : e.scope? k = some s → s.owner = some o →
    ∃ t, e.scope? o = some t ∧ k ∈ t.children
  /-- Each scope is intact. -/
  scope {k : ScopeId} {s : Scope} : e.scope? k = some s → s.Intact
  /-- Each rule has a place for its name. -/
  cell {k : ScopeId} {key : Nat} {r : Rule} : e.rule? k key = some r → r.cell.isSome
  /-- No two rules have one place. -/
  cell_own {k k' : ScopeId} {key key' : Nat} {r r' : Rule} : e.rule? k key = some r →
    e.rule? k' key' = some r' → r'.cell = r.cell → k' = k ∧ key' = key

/-- Looking up all places of a list gives the list. -/
theorem filterMap_getElem?_range {α : Type} (xs : List α) :
    (List.range xs.length).filterMap (xs[·]?) = xs := by
  induction xs with
  | nil => rfl
  | cons x xs ih =>
    rw [List.length_cons, List.range_succ_eq_map, List.filterMap_cons, List.filterMap_map]
    exact congrArg (x :: ·) ih

/-- A scope is intact that lists its rules, has them under their slots, and has sorted them. -/
theorem Scope.intact_of_indexed {s : Scope} (hl : s.Listed) (h : s.Indexed) (hslotted : s.Slotted)
    (hsorted : s.Sorted) : s.Intact where
  -- Keys are positions in the list of rules, and the order lists them all.
  order_nodup := by
    rw [hl]
    exact List.nodup_range
  mem_order {key} := by
    unfold rule?
    rw [hl.mem_order, Option.isSome_iff_ne_none, ne_eq, List.getElem?_eq_none_iff, Nat.not_le]
  rules := by
    unfold rule?
    rw [hl, keys]
    exact filterMap_getElem?_range s.rules
  slots_nodup := h.slots_nodup
  slot hkey := hslotted.named hkey
  perm := h.perm
  named := h.named
  unnamed := h.unnamed
  -- Buckets are those that sorting makes, of which the lemmas above tell what is in them.
  kinds_nodup := by
    rw [hsorted]
    exact s.buckets_tidy.1
  kind kind := by
    rw [hsorted]
    exact s.get?_buckets kind
  kind_ne_nil {kind keys} hkeys := by
    rw [hsorted] at hkeys
    exact s.buckets_tidy.2 kind keys hkeys

open Engine

variable {μ : Type} {library : Library μ} {naming : NamingConfig} {catalog : Catalog}
  {ambient : Ambient} {memory : μ} {s : Engine × μ} {steps : List (Request μ × Answer)}

/-- Each scope lists its rules in every run, and each rule has a place of its own. -/
theorem Run.indexed (h : Run library (create naming catalog ambient, memory) steps s) :
    Engine.Indexed s.1 := by
  have hnone : ∀ {k s}, (create naming catalog ambient).scope? k ≠ some s := fun hs => by cases hs
  have hrule : ∀ {k key r}, (create naming catalog ambient).rule? k key ≠ some r := fun hr => by
    cases hr
  exact h.callwise indexed_callwise (sound_create naming catalog ambient)
    ⟨fun hs => absurd hs hnone, fun hr => absurd hr hrule, fun hr => absurd hr hrule⟩

/-- The rules of each scope are sorted by their kinds in every run. -/
theorem Run.sorted (h : Run library (create naming catalog ambient, memory) steps s) :
    Engine.Sorted s.1 := by
  have hs := sound_create naming catalog ambient
  exact (h.callwise sorted_callwise hs hs.unnamed fun _ _ hs' => by cases hs').2

/-- **Engines are intact between calls,** whatever is called, and whether the
    calls succeed or not. -/
theorem Run.intact (h : Run library (create naming catalog ambient, memory) steps s) :
    s.1.Intact := by
  have hcreated := sound_create naming catalog ambient
  have hs := h.sound hcreated
  have hindexed := h.indexed
  have hslotted := h.labelled.2
  constructor
  -- No definition is declaring between calls, so that all scopes are processed.
  · exact h.callwise constructing_callwise hcreated
  · exact fun hk => hs.settled hk
  · intro key id hid
    obtain ⟨t, ht, -⟩ := hs.linked.singleton_live hid
    exact ⟨t, ht⟩
  · intro k r t hk hr
    obtain ⟨u, hu, -⟩ := hs.linked.reference_ready hk hr
    exact ⟨u, hu⟩
  · intro k b t hk hb
    obtain ⟨u, hu, -⟩ := h.handed.base_ready hk hb
    exact ⟨u, hu⟩
  · intro k o t hk ho
    obtain ⟨-, u, hu, hchild, -⟩ := hs.linked.owner_child hk ho
    exact ⟨u, hu, hchild⟩
  · exact fun hk =>
      Scope.intact_of_indexed (hs.linked.listed hk) (hindexed.scope hk) (hslotted _ _ hk)
        (h.sorted _ _ hk (hs.settled hk))
  · intro k key r hr
    obtain ⟨cell, hcell, -⟩ := hindexed.placed hr
    exact Option.isSome_of_eq_some hcell
  · exact fun hr hr' heq => hindexed.own hr hr' heq

/-- A library of three definitions. The first one uses itself and fails; the second one goes on
    after that has happened, and declares a slot again that was a class. -/
def tangledLibrary : Library Unit
  | 0 => ⟨0, "Loop", "loop", false, .add "body" (.cls .empty) fun _ => .use 0 fun
      | .error err => .fail err
      | .ok _ => .done⟩
  | 1 => ⟨1, "Sheet", "sheet", false, .add "body" (.cls .empty) fun _ =>
      .addUnnamed (.tag "p" .empty) fun _ =>
      .group (.media "print") (.add "body" (.cls .empty) fun _ => .use 0 fun _ => .done) fun _ =>
      .extend 2 fun _ => .use 2 fun _ => .add "body" (.var none (.text "red")) fun _ => .done⟩
  | key => ⟨key, "Base", "base", false, .add "step" .counter fun _ => .done⟩

/-- A definition fails, and another one is processed in which it fails once more. -/
theorem intact_of_tangle : ∃ steps s t, Run tangledLibrary (create {} .empty .initial, ()) steps s ∧
    steps.map (·.2.toOption) = [none, some (some 2)] ∧ s.1.scope? 2 = some t ∧
      t.named = [("body", 0), ("step", 3)] ∧ t.unnamed = [1, 2] ∧
      t.byKind = [(.var, [0]), (.tag, [1]), (.group, [2]), (.counter, [3])] ∧ s.1.Intact := by
  have hout : ((Session.performAll tangledLibrary [.process 4 0, .process 4 1]
      (freshSession TextSink.empty)).any fun out =>
        out.1.map (·.2.toOption) = [none, some (some 2)] &&
          (out.2.engine.scope? 2).any fun t => t.named = [("body", 0), ("step", 3)] &&
            t.unnamed = [1, 2] &&
            t.byKind = [(.var, [0]), (.tag, [1]), (.group, [2]), (.counter, [3])]) = true := by
    decide +kernel
  obtain ⟨⟨steps, s⟩, hperform, hp⟩ := (Option.any_eq_true _ _).mp hout
  simp only [Bool.and_eq_true, Option.any_eq_true, decide_eq_true_eq] at hp
  obtain ⟨hanswers, t, ht, ⟨hnamed, hunnamed⟩, hkinds⟩ := hp
  have hrun : Run tangledLibrary (create {} .empty .initial, ()) steps (s.engine, s.memory) :=
    .performAll .start hperform
  exact ⟨steps, _, t, hrun, hanswers, ht, hnamed, hunnamed, hkinds, Run.intact hrun⟩

end StyleBook
