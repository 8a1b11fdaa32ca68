import StyleBook.Proofs.Name.KeptCells
import StyleBook.Proofs.Script.Stepwise
import StyleBook.Proofs.Text.NestedTexts

namespace StyleBook

/-!
# Texts that stay

Between calls everything that the text of a scope depends on is final: the rules of its scopes, the
names in places that were handed out, and which groups are nested in which.

* `Engine.Outlives` — what calls leave alone, whether they succeed or fail; `Run.outlives` — so do
  runs;
* `Engine.Shown` — the scopes whose rules the text of a scope is made of;
* `Engine.own` — what these rules may depend on: places and scopes that the engine handed out, and
  sources that answer the same every time;
* `Run.text_kept` — then the text is the same after all later calls.
-/

variable {μ σ : Type} [Sink σ]

/-! ### What calls leave alone -/

namespace Engine

variable {e e' e'' : Engine} {id k : ScopeId}

/-- Between calls no place is open. -/
theorem Sound.not_open (hs : Sound [] e) (cell : Nat) : ¬ e.Open cell :=
  fun ⟨_, _, hk, hn, _⟩ => hn (hs.settled hk)

/-- If no place is open after touching the engine, all places that were handed out are kept. -/
theorem Touched.kept (h : Touched e e') (hs : Sound [] e') : Kept e e' :=
  .touched h fun hk hn => absurd (hs.settled hk) hn

/-- Asking for a name fills no place. -/
theorem nameFor_kept (id : ScopeId) (slot : String) (hs : Sound [] e)
    (hs' : Sound [] (nameFor id slot e).2) : Kept e (nameFor id slot e).2 := by
  -- No scope has the next id, so there is no scope inside of it.
  have hfills : FillsCells e.nextScope e (nameFor id slot e).2 :=
    nameForWithin_fills e.walkLimit id slot e
  refine ⟨hfills.nextCell.ge, fun _ ho => absurd ho (hs'.not_open _), fun _ _ => hfills.cells ?_,
    hfills.catalog⟩
  intro k s hin
  obtain ⟨t, ht⟩ := hin.root_live
  exact absurd (hs.linked.lt_nextScope ht) (lt_irrefl _)

/-- A scope that was not there has a new id. -/
structure Aged (e e' : Engine) : Prop where
  nextScope : e.nextScope ≤ e'.nextScope
  born {k s'} : e'.scope? k = some s' → e.scope? k = none → e.nextScope ≤ k

instance : IsPreorder Engine Aged where
  refl _ := ⟨le_rfl, fun hs hn => by rw [hn] at hs; cases hs⟩
  trans _ e₁ _ h h' := ⟨h.nextScope.trans h'.nextScope, fun {k _} hs hn => by
    cases hk : e₁.scope? k with
    | none => exact h.nextScope.trans (h'.born hs hk)
    | some _ => exact h.born hk hn⟩

/-- Where only scopes change, an engine grows older. -/
theorem Rescoped.aged {R : ScopeId → Scope → Scope → Prop} (h : Rescoped R e e') : Aged e e' :=
  ⟨h.nextScope.ge, fun hs hn => by
    obtain ⟨_, hs', -⟩ := h.back hs
    rw [hn] at hs'
    cases hs'⟩

/-- It does so across a call. -/
theorem Served.aged {P : Engine → ScopeId → StyleBody → Prop} (h : Served P e e')
    (hs : Sound [] e) : Aged e e' := by
  induction h with
  | builds h =>
    have hx := (h.sound hs).2
    exact ⟨hx.nextScope_le, fun hk hn => (hx.born hk hn).1⟩
  | reuses h => exact h.aged
  | renames h => exact h.aged
  | trans first _ ih ih' => exact trans_of Aged (ih hs) (ih' (first.sound hs))

end Engine

open Engine

/-- **Calls keep all places that were handed out.** -/
theorem Engine.kept_callwise : Callwise Kept where
  toStepwise := kept_stepwise
  reused _ hs' _ ht := ht.kept hs'
  named {e e' id slot r} hs hs' h := by
    have hkept := nameFor_kept (e := e) id slot hs
    rw [h] at hkept
    exact hkept hs'
  configured _ hs' h := by
    subst h
    exact ⟨le_rfl, fun _ ho => absurd ho (hs'.not_open _), fun _ _ => rfl, rfl⟩

/-- **What calls leave alone.** -/
structure Engine.Outlives (e e' : Engine) : Prop where
  kept : Kept e e'
  aged : Aged e e'
  scopes : Carries (fun _ => Scope.Continued) e e'

instance : IsPreorder Engine Outlives where
  refl e := ⟨.refl e, refl_of Aged e, .refl e⟩
  trans _ _ _ h h' := ⟨h.kept.trans h'.kept, trans_of Aged h.aged h'.aged, h.scopes.trans h'.scopes⟩

/-- Scopes outlive a call. -/
theorem Performed.outlives {library : Library μ} {request : Request μ} {s s' : Session μ σ}
    {r : Answer} (h : Performed library request s r s') (hs : Sound [] s.engine) :
    Outlives s.engine s'.engine :=
  have hserved := h.served hs (request.declares_anything library (s.engine, s.memory))
  ⟨h.callwise kept_callwise hs, hserved.aged hs, hserved.continued hs⟩

omit [Sink σ] in
/-- All calls of a run do. -/
theorem Run.outlives {library : Library μ} {start s : Engine × μ}
    {steps : List (Request μ × Answer)} (h : Run library start steps s) (hs : Sound [] start.1) :
    Outlives start.1 s.1 := by
  induction h with
  | start => exact refl_of Outlives _
  | call before request sink h ih =>
    exact trans_of Outlives ih ((Request.performed h).outlives (before.sound hs))

/-- The scope that a group is about. -/
def RuleContent.nested? : RuleContent → Option ScopeId
  | .group _ nested => some nested
  | _ => none

/-- Rules with a nested scope are groups. -/
theorem RuleContent.eq_group_of_nested? {content : RuleContent} {j : ScopeId}
    (h : content.nested? = some j) : ∃ condition, content = .group condition j := by
  cases content with
  | group condition nested =>
    cases h
    exact ⟨condition, rfl⟩
  | _ => cases h

namespace Engine

variable {e e' : Engine} {id : ScopeId}

/-! ### What the text of a scope depends on -/

/-- The scope has a group about the other one. -/
def Groups (e : Engine) (k j : ScopeId) : Prop :=
  ∃ s, e.scope? k = some s ∧ ∃ rule ∈ s.rules, ∃ condition, rule.content = .group condition j

/-- **The rules of the other scope are part of the text of this one:** groups lead there. -/
abbrev Shown (e : Engine) : ScopeId → ScopeId → Prop := Relation.ReflTransGen e.Groups

/-- **What the text of a scope may depend on:** places of names and scopes that the engine handed
    out, and sources that answer the same every time. -/
def own (e : Engine) (id : ScopeId) (units : UnitTable) : Likeness where
  cells a b := a = b ∧ a < e.nextCell
  scopes k j := k = j ∧ e.Shown id k ∧ k < e.nextScope
  sources source := ∀ k, source.text k = source.text 0
  units := units

/-- **The text of the scope depends on nothing else.** -/
def Owned (e : Engine) (id : ScopeId) (units : UnitTable) : Prop :=
  ∀ k s, e.Shown id k → e.scope? k = some s → ∀ rule ∈ s.rules, rule.Shows (e.own id units) rule

variable {units : UnitTable}

/-- Only the same places count as alike in a later engine. -/
theorem own_strict : (e.own id units).Strict := fun _ _ h => h.1

/-- And only sources that always answer the same. -/
theorem own_steady : (e.own id units).Steady := fun _ h => h

/-- **Later engines write the same** what depends on nothing else. -/
theorem Outlives.alike (h : Outlives e e') (hs : Sound [] e) (hsupports : e'.supports = e.supports)
    (hown : e.Owned id units) : AlikeScopes (e.own id units) e e' where
  setting :=
    { catalog := h.kept.catalog.symm
      blind := Catalog.blind_of_strict own_strict _
      names := fun {i j} ⟨hij, hlt⟩ => hij ▸ (h.kept.cells hlt (hs.not_open i)).symm }
  supports := hsupports.symm
  scopes := fun {k j} ⟨hkj, hshown, hlt⟩ => by
    cases hkj
    cases hk : e.scope? k with
    | none =>
      cases hk' : e'.scope? k with
      | none => exact .none
      | some s' => exact absurd (h.aged.born hk' hk) (Nat.not_le.mpr hlt)
    | some s =>
      obtain ⟨s', hs', hcontinued⟩ := h.scopes k s hk
      rw [hs', hcontinued.eq_names]
      exact .some (List.forall₂_same.mpr (hown k s hshown hk))

/-- Scopes are not lost, so walks may be as long as before. -/
theorem Outlives.walkLimit_le (h : Outlives e e') (hs : Sound [] e) :
    e.walkLimit ≤ e'.walkLimit := by
  have hsub : e.scopes.keys ⊆ e'.scopes.keys := fun k hk => by
    obtain ⟨s, hs⟩ := mem_keys_iff.mp hk
    obtain ⟨s', hs', -⟩ := h.scopes k s hs
    exact mem_keys_of_scope? hs'
  have hle := (hs.linked.keys_nodup.subperm hsub).length_le
  unfold Dict.keys at hle
  rw [List.length_map, List.length_map] at hle
  exact Nat.succ_le_succ hle

/-- **The text of a scope is kept,** whatever is called in between. -/
theorem Outlives.serialize_eq (h : Outlives e e') (hs : Sound [] e) {s : Scope}
    (hlive : e.scope? id = some s) (hsupports : e'.supports = e.supports)
    (hown : e.Owned id units) {a a' : Ambient} (ha : a.units = units) (ha' : a'.units = units) :
    (e'.serialize id a').1 = (e.serialize id a).1 := by
  have hid : (e.own id units).scopes id id := ⟨rfl, .refl, hs.linked.lt_nextScope hlive⟩
  calc (e'.serialize id a').1
    _ = (e.serializeWithin e'.walkLimit id a).1 :=
      (serializeWithin_agree (h.alike hs hsupports hown) e'.walkLimit hid a a'
        (own_steady.matches ha ha')).1.symm
    _ = (e.serialize id a).1 := serializeWithin_limit (h.walkLimit_le hs) id a

end Engine

/-- **The text of a processed scope stays the same** through all later calls, if features and units
    are the same, sources answer the same every time, and the engine itself has handed out the
    places and the scopes that the rules mention. -/
theorem Run.text_kept {library : Library μ} {naming : NamingConfig} {catalog : Catalog}
    {ambient : Ambient} {memory : μ} {steps later : List (Request μ × Answer)}
    {before after : Engine × μ} {id : ScopeId} {s : Scope} {a a' : Ambient}
    (hrun : Run library (create naming catalog ambient, memory) steps before)
    (hlive : before.1.scope? id = some s) (hown : before.1.Owned id a.units)
    (hlater : Run library before later after)
    (hsupports : after.1.supports = before.1.supports) (hunits : a'.units = a.units) :
    (after.1.serialize id a').1 = (before.1.serialize id a).1 :=
  have hs := hrun.sound (sound_create naming catalog ambient)
  (hlater.outlives hs).serialize_eq hs hlive hsupports hown rfl hunits

/-! ### A sample -/

/-- A library with a definition whose group mentions a rule outside of it. -/
def pageLibrary : Library Unit
  | 0 => ⟨0, "Page", "page", false, .add "spin" (.animation []) fun spin =>
      .group (.media "print")
        (.add "wipe" (.animation []) fun _ =>
          .addUnnamed (.selector ⟨[.name (spin.nameRef .bare)]⟩ .empty) fun _ => .done)
        fun _ => .done⟩
  | key => sampleLibrary key

/-- The scopes of the page, once they are processed: a rule and a group with a rule of its own and
    one that mentions the rule outside. -/
def pageScopes : Dict ScopeId Scope → Bool
  | [(1, ⟨_, _, _, _, [⟨.animation [], _, _, some 0, none⟩, ⟨.group _ 2, _, _, some 3, none⟩],
        _, _, _, _, _, _, _, _, _, _⟩),
      (2, ⟨_, _, _, _, [⟨.animation [], _, _, some 1, none⟩,
        ⟨.selector ⟨[.name ⟨_, .ofRule 0, _⟩]⟩ _, _, _, some 2, some ⟨[], [], []⟩⟩],
        _, _, _, _, _, _, _, _, _, _⟩)] => true
  | _ => false

/-- What was called last. -/
theorem Session.performAll_concat {library : Library μ} {requests : List (Request μ)}
    {request : Request μ} {s s' : Session μ σ} {steps : List (Request μ × Answer)}
    (h : Session.performAll library (requests ++ [request]) s = some (steps, s')) :
    ∃ s₁ r, request.perform library s₁ = some (r, s') := by
  induction requests generalizing s steps with
  | nil =>
    obtain ⟨r, s₁, later, h₁, h₂, -⟩ := performAll_cons h
    cases h₂
    exact ⟨s, r, h₁⟩
  | cons first rest ih =>
    obtain ⟨_, _, _, -, h₂, -⟩ := performAll_cons h
    exact ih h₂

/-- The text of the page is the same after calls of all kinds, of which one fails. -/
theorem page_text_kept : ∃ steps later before after,
    Run pageLibrary (create {} .empty .initial, ()) steps before ∧
      Run pageLibrary before later after ∧ (later.map (·.2.isOk)).contains false ∧
      (before.1.serialize 1 .initial).1.toOption = some ["@keyframes page_spin\x7b\x7d",
        "@media print\x7b@keyframes page_wipe\x7b\x7d\x7d"] ∧
      (after.1.serialize 1 .initial).1 = (before.1.serialize 1 .initial).1 := by
  -- Each run ends with a call that names the features.
  let called : Request Unit := .configure (·.useOptimized "n") (fun _ => true) fun a => a
  have hout : ((Session.performAll pageLibrary ([.process 2 0] ++ [called])
      (freshSession TextSink.empty)).any fun out =>
        (out.2.engine.serialize 1 .initial).1.toOption = some ["@keyframes page_spin\x7b\x7d",
          "@media print\x7b@keyframes page_wipe\x7b\x7d\x7d"] &&
        out.2.engine.nextCell = 4 && out.2.engine.nextScope = 3 &&
        pageScopes out.2.engine.scopes &&
        ((Session.performAll pageLibrary ([.processInstance 2 brokenDefinition, .activate 1,
          .process 3 2, .nameFor 1 "slot", .deactivate 1] ++ [called]) out.2).any fun later =>
            (later.1.map (·.2.isOk)).contains false)) = true := by decide +kernel
  have hcalled : ∀ {requests steps} {s s' : Session Unit TextSink},
      Session.performAll pageLibrary (requests ++ [called]) s = some (steps, s') →
        s'.engine.supports = fun _ => true := fun h => by
    obtain ⟨s₁, r, hlast⟩ := Session.performAll_concat h
    cases hlast
    rfl
  obtain ⟨⟨steps, s⟩, hbefore, hp⟩ := (Option.any_eq_true _ _).mp hout
  simp only [Bool.and_eq_true, decide_eq_true_eq] at hp
  obtain ⟨⟨⟨⟨htext, hcell⟩, hscope⟩, hscopes⟩, hp⟩ := hp
  obtain ⟨⟨later, s'⟩, hlater, hfails⟩ := (Option.any_eq_true _ _).mp hp
  have hrun : Run pageLibrary (create {} .empty .initial, ()) steps (s.engine, s.memory) :=
    .performAll .start hbefore
  have hrest : Run pageLibrary (s.engine, s.memory) later (s'.engine, s'.memory) :=
    .performAll .start hlater
  unfold pageScopes at hscopes
  split at hscopes
  · next heq =>
    have hget : ∀ k, s.engine.scope? k = Dict.get? k _ := fun k => congrArg (Dict.get? k) heq
    have hown : s.engine.Owned 1 [] := by
      have hcells : ∀ c, c < 4 → (s.engine.own 1 []).cells c c := fun c hc => ⟨rfl, hcell ▸ hc⟩
      have hnested : (s.engine.own 1 []).scopes 2 2 := by
        refine ⟨rfl, .single ⟨_, hget 1, _, List.mem_cons_of_mem _ List.mem_cons_self, _, rfl⟩, ?_⟩
        rw [hscope]
        decide
      intro k t hshown ht rule hrule
      rw [hget, Dict.get?, Dict.get?] at ht
      split at ht
      · cases ht
        rcases List.mem_pair.mp hrule with rfl | rfl
        · exact ⟨.animation .nil, rfl, .some (hcells _ (by decide)), .none⟩
        · exact ⟨.group hnested, rfl, .some (hcells _ (by decide)), .none⟩
      · split at ht
        · cases ht
          rcases List.mem_pair.mp hrule with rfl | rfl
          · exact ⟨.animation .nil, rfl, .some (hcells _ (by decide)), .none⟩
          · refine ⟨.selector (.cons (.name ⟨rfl, .ofRule (hcells _ (by decide)), rfl⟩) .nil), rfl,
              .some (hcells _ (by decide)), .some (.of .nil .nil .nil)⟩
        · cases ht
    exact ⟨steps, later, (s.engine, ()), (s'.engine, ()), hrun, hrest, hfails, htext,
      hrun.text_kept (hget 1) hown hrest ((hcalled hlater).trans (hcalled hbefore).symm) rfl⟩
  · cases hscopes

end StyleBook
