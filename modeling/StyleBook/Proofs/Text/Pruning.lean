import StyleBook.Proofs.Text.TextErrors

namespace StyleBook

/-!
# Groups that are left out

A group whose feature is not supported is left out of the text of its scope, with everything that is
nested in it. The text is that of scopes without such groups.

* `Rule.stays`, `Scope.prune` — a scope without the groups that are left out
* `Engine.Remains` — the scopes that groups still lead to
* `Engine.Pruned` — an engine in which these are as they are, without the groups that are left out;
  what has become of all others is open: `Pruned.prune`, `Pruned.erase`
* `Engine.serialize_pruned` — both engines write the same, and why they write nothing at all
-/

/-- The rule is no group whose feature is not supported. -/
def Rule.stays (supports : String → Bool) (rule : Rule) : Bool :=
  match rule.content with
  | .group (.supports query) _ => supports query
  | _ => true

/-- The scope without groups whose feature is not supported. -/
def Scope.prune (supports : String → Bool) (s : Scope) : Scope :=
  { s with rules := s.rules.filter (·.stays supports) }

/-- Groups for media stay. -/
theorem Rule.stays_media {supports : String → Bool} {rule : Rule} {query : String} {j : ScopeId}
    (h : rule.content = .group (.media query) j) : rule.stays supports = true := by
  unfold stays
  rw [h]

/-- What is left out is a group. -/
theorem Rule.content_of_not_stays {supports : String → Bool} {rule : Rule}
    (h : rule.stays supports = false) :
    ∃ query j, rule.content = .group (.supports query) j ∧ supports query = false := by
  unfold stays at h
  split at h
  · next query j hcontent => exact ⟨query, j, hcontent, h⟩
  · cases h

namespace Engine

variable {e e' : Engine} {k j : ScopeId} {units : UnitTable}

/-- The scope has a group about the other one that is not left out. -/
def Keeps (e : Engine) (k j : ScopeId) : Prop :=
  ∃ s, e.scope? k = some s ∧ ∃ rule ∈ s.rules, rule.stays e.supports = true ∧
    ∃ condition, rule.content = .group condition j

/-- **Groups that are not left out lead to the scope.** -/
abbrev Remains (e : Engine) : ScopeId → ScopeId → Prop := Relation.ReflTransGen e.Keeps

/-- **The tree below the scope has lost the groups that were left out,** with everything nested in
    them, and all features are supported. Nothing is said of scopes that are in the tree no more. -/
structure Pruned (e : Engine) (root : ScopeId) (e' : Engine) : Prop where
  setting : e'.setting = e.setting
  supports (query : String) : e'.supports query = true
  scopes {k : ScopeId} : e.Remains root k → e'.scope? k = (e.scope? k).map (·.prune e.supports)

/-- The engine with all groups left out that it does not support. -/
def prune (e : Engine) : Engine :=
  { e with
    supports := fun _ => true
    scopes := e.scopes.map (Prod.map id (·.prune e.supports)) }

namespace Pruned

/-- The pruned tree is a pruned one. -/
theorem prune (e : Engine) (root : ScopeId) : e.Pruned root e.prune where
  setting := rfl
  supports _ := rfl
  scopes _ := Dict.get?_map _ _ _

/-- Scopes that were only in groups that are left out may go. -/
theorem erase (h : e.Pruned k e') (hj : ¬ e.Remains k j) :
    e.Pruned k { e' with scopes := e'.scopes.erase j } where
  setting := h.setting
  supports := h.supports
  scopes {i} hi := by
    have hne : i ≠ j := fun heq => hj (heq ▸ hi)
    exact (Dict.get?_erase_of_ne hne _).trans (h.scopes hi)

/-- All groups that are left are kept. -/
theorem keeps (h : e.Pruned k e') {i : ScopeId} (hi : e.Remains k i) (hg : e'.Groups i j) :
    e.Keeps i j := by
  obtain ⟨s', hs', rule, hrule, condition, hcontent⟩ := hg
  rw [h.scopes hi] at hs'
  obtain ⟨s, hs, rfl⟩ := Option.map_eq_some_iff.mp hs'
  obtain ⟨hmem, hstays⟩ := List.mem_filter.mp hrule
  exact ⟨s, hs, rule, hmem, hstays, condition, hcontent⟩

/-- What is shown in the pruned tree remains. -/
theorem remains (h : e.Pruned k e') (hj : e'.Shown k j) : e.Remains k j := by
  induction hj with
  | refl => exact .refl
  | tail _ hg ih => exact .tail ih (h.keeps ih hg)

end Pruned

/-! ### Texts -/

/-- Groups are no custom properties. -/
theorem rootDeclarations_prune (setting : Setting) (supports : String → Bool) (rules : List Rule) :
    rootDeclarations setting (rules.filter (·.stays supports)) = rootDeclarations
    setting rules := by
  induction rules with
  | nil => rfl
  | cons rule rest ih =>
    cases hstays : rule.stays supports with
    | true => rw [List.filter_cons_of_pos hstays, rootDeclarations, rootDeclarations, ih]
    | false =>
      obtain ⟨query, j, hcontent, -⟩ := Rule.content_of_not_stays hstays
      have hempty : (HAppend.hAppend "" : String → String) = id :=
        funext fun _ => String.empty_append
      rw [List.filter_cons_of_neg (by simp [hstays]), rootDeclarations, hcontent, ih]
      simp only [pure_bind, bind_pure_comp, hempty, id_map]

/-- Rules without the groups that are left out have the same text, if what is nested has. -/
theorem ruleTexts_prune (hsetting : e'.setting = e.setting)
    (hsupports : ∀ query, e'.supports query = true)
    {nested nested' : ScopeId → Convert (List String)}
    (rules : List Rule)
    (hnested : ∀ rule ∈ rules, rule.stays e.supports = true → ∀ condition j,
      rule.content = .group condition j → Convert.Agree (.same units) (nested j) (nested' j)) :
    Convert.Agree (.same units) (ruleTexts e nested rules)
      (ruleTexts e' nested' (rules.filter (·.stays e.supports))) := by
  induction rules with
  | nil => exact .pure _
  | cons rule rest ih =>
    have hrest := ih fun r hr => hnested r (List.mem_cons_of_mem _ hr)
    -- A rule that is left out is a group whose query is refused, and has no text but a report.
    cases hstays : rule.stays e.supports with
    | false =>
      obtain ⟨query, j, hcontent, hrefused⟩ := Rule.content_of_not_stays hstays
      have hsilent : Convert.Silent (.same units)
          (ruleTexts.groupTexts e nested (.supports query) j) [] := by
        unfold ruleTexts.groupTexts
        simp only [hrefused]
        exact .bind (.report _) (.pure _)
      rw [List.filter_cons_of_neg (by simp [hstays]), ruleTexts, hcontent]
      exact hsilent.agree (hrest.map_left List.nil_append)
    | true =>
      have hcss : Convert.Agree (.same units) (rule.css e.setting) (rule.css e'.setting) := by
        rw [hsetting]
        exact Rule.css_agree (AlikeScopes.same e units).setting (.same rule)
      rw [List.filter_cons_of_pos hstays, ruleTexts, ruleTexts]
      split
      · exact .map hrest _
      · exact .map hrest _
      · next condition j hcontent =>
        have hgroup : Convert.Agree (.same units) (ruleTexts.groupText nested condition j)
            (ruleTexts.groupText nested' condition j) :=
          (hnested rule List.mem_cons_self hstays condition j hcontent).map _
        refine .bind ?_ fun _ => .map hrest _
        -- Queries of groups that stay are asked once more, and are granted then as well.
        unfold ruleTexts.groupTexts
        unfold Rule.stays at hstays
        rw [hcontent] at hstays
        cases condition with
        | media => exact hgroup
        | supports query =>
          simp only at hstays
          simp only [hstays, hsupports]
          exact hgroup
      · exact .bind hcss fun _ => .map hrest _

/-- Scopes without the groups that are left out have the same text. -/
theorem serializeWithin_prune (h : e.Pruned k e') (limit : Nat) (hj : e.Remains k j) :
    Convert.Agree (.same units) (e.serializeWithin limit j) (e'.serializeWithin limit j) := by
  induction limit generalizing j with
  | zero => exact .throw _
  | succ limit ih =>
    rw [serializeWithin, serializeWithin, h.scopes hj]
    cases hs : e.scope? j with
    | none => exact .throw _
    | some s =>
      have hvars : Convert.Agree (.same units) (rootDeclarations e.setting s.rules)
          (rootDeclarations e'.setting (s.prune e.supports).rules) := by
        rw [h.setting, Scope.prune, rootDeclarations_prune]
        exact rootDeclarations_agree (AlikeScopes.same e units).setting
          (List.forall₂_same.mpr fun rule _ => .same rule)
      refine .bind hvars fun _ => .map (ruleTexts_prune h.setting h.supports s.rules ?_) _
      exact fun rule hrule hstays condition i hcontent =>
        ih (hj.tail ⟨s, hs, rule, hrule, hstays, condition, hcontent⟩)

/-! ### Groups that are always written -/

/-- What is written around the text of a group for media. -/
def mediaText (query : String) (inner : List String) : String :=
  "@media " ++ query ++ "\x7b" ++ concatTexts inner ++ "\x7d"

/-- The texts of rules are those of the first one and those of the others; a group for media has one
    text. -/
theorem ruleTexts_cons_eq_ok {nested : ScopeId → Convert (List String)} {rule : Rule}
    {rest : List Rule} {a a' : Ambient} {texts : List String}
    (h : ruleTexts e nested (rule :: rest) a = (.ok texts, a')) :
    ∃ own others b, texts = own ++ others ∧ ruleTexts e nested rest b = (.ok others, a') ∧
      ∀ query j, rule.content = .group (.media query) j →
        ∃ inner, nested j a = (.ok inner, b) ∧ own = [mediaText query inner] := by
  -- Each kind of rule is a head in front of the rest, and of the head of a group for media we know
  -- more.
  obtain ⟨head, heq, hmedia⟩ : ∃ head : Convert (List String),
      ruleTexts e nested (rule :: rest) =
        (do let own ← head; return own ++ (← ruleTexts e nested rest)) ∧
      ∀ query j, rule.content = .group (.media query) j →
        head = ruleTexts.groupText nested (.media query) j := by
    rw [ruleTexts]
    split
    · next hcontent => exact ⟨pure [], rfl, fun _ _ h => by rw [hcontent] at h; cases h⟩
    · next hcontent => exact ⟨pure [], rfl, fun _ _ h => by rw [hcontent] at h; cases h⟩
    · next condition j hcontent =>
      exact ⟨ruleTexts.groupTexts e nested condition j, rfl, fun _ _ h => by
        rw [hcontent] at h; cases h; rfl⟩
    · next hcontent => exact ⟨rule.css e.setting, rfl, fun _ _ h => (hcontent _ _ h).elim⟩
  rw [heq] at h
  obtain ⟨own, b, hhead, h⟩ := stateful_bind_eq_ok h
  obtain ⟨others, b', hrest, hpure⟩ := stateful_bind_eq_ok h
  cases hpure
  refine ⟨own, others, b, rfl, hrest, fun query j hcontent => ?_⟩
  rw [hmedia query j hcontent] at hhead
  obtain ⟨inner, b₁, hinner, hpure⟩ := stateful_bind_eq_ok hhead
  cases hpure
  exact ⟨inner, hinner, rfl⟩

/-- A group for media is written among the texts of its rules. -/
theorem mediaText_mem {nested : ScopeId → Convert (List String)} {rules : List Rule} {rule : Rule}
    {query : String} {a a' : Ambient} {texts : List String} (hrule : rule ∈ rules)
    (hcontent : rule.content = .group (.media query) j)
    (h : ruleTexts e nested rules a = (.ok texts, a')) :
    ∃ b inner, (nested j b).1 = .ok inner ∧ mediaText query inner ∈ texts := by
  induction rules generalizing a texts with
  | nil => cases hrule
  | cons first rest ih =>
    obtain ⟨own, others, b, rfl, hrest, hmedia⟩ := ruleTexts_cons_eq_ok h
    rcases List.mem_cons.mp hrule with rfl | hrule
    · obtain ⟨inner, hinner, rfl⟩ := hmedia query j hcontent
      exact ⟨a, inner, by rw [hinner], List.mem_append_left _ List.mem_cons_self⟩
    · obtain ⟨b', inner, hinner, hmem⟩ := ih hrule hrest
      exact ⟨b', inner, hinner, List.mem_append_right _ hmem⟩

/-- A text that can be written with some limit is the text of the scope. -/
theorem serialize_of_within {limit : Nat} {a : Ambient} {texts : List String}
    (hle : limit ≤ e.walkLimit) (h : (e.serializeWithin limit k a).1 = .ok texts) :
    (e.serialize k a).1 = .ok texts := by
  unfold serialize
  generalize e.walkLimit = more at hle ⊢
  induction more, hle using Nat.le_induction with
  | base => exact h
  | succ more _ ih =>
    rcases serializeWithin_raise more k a with hdeep | hsame
    · rw [hdeep a] at ih
      cases ih
    · exact hsame.symm.trans ih

/-- **A group for media is always written** around the text of its nested scope, empty or not. -/
theorem mediaText_mem_serialize {s : Scope} {rule : Rule} {query : String} {a : Ambient}
    {texts : List String} (hs : e.scope? k = some s) (hrule : rule ∈ s.rules)
    (hcontent : rule.content = .group (.media query) j) (h : (e.serialize k a).1 = .ok texts) :
    ∃ b inner, (e.serialize j b).1 = .ok inner ∧ mediaText query inner ∈ texts := by
  rcases hrun : e.serialize k a with ⟨r, a'⟩
  rw [hrun] at h
  cases h
  unfold serialize walkLimit at hrun
  rw [serializeWithin, hs] at hrun
  obtain ⟨vars, a₁, -, hrest⟩ := stateful_bind_eq_ok hrun
  obtain ⟨others, a₂, htexts, hpure⟩ := stateful_bind_eq_ok hrest
  cases hpure
  obtain ⟨b, inner, hinner, hmem⟩ := mediaText_mem hrule hcontent htexts
  exact ⟨b, inner, serialize_of_within (Nat.le_succ _) hinner, List.mem_append_right _ hmem⟩

/-! ### Both engines -/

/-- **The text of a scope is that of the tree without the groups that are left out.** What was
    nested in them is part of no text, and no error is about it: each is about a scope that remains.
    Groups for media remain, and are always written around what is nested in them. -/
theorem serialize_pruned (h : e.Pruned k e') (a : Ambient) :
    (e.serialize k a).1 = (e'.serialize k a).1 ∧
      (∀ err, (e.serialize k a).1 = .error err → err = .endless "" ∨
        (err = .unknownScope ∧ ∃ j, e.Remains k j ∧ e.scope? j = none) ∨
        ∃ j s, e.Remains k j ∧ e.scope? j = some s ∧
          e.LacksAmong (s.prune e.supports).rules err) ∧
      ∀ j s, e.Remains k j → e.scope? j = some s → ∀ rule ∈ s.rules, ∀ query i,
        rule.content = .group (.media query) i →
          e.Remains k i ∧ (∃ s', e'.scope? j = some s' ∧ rule ∈ s'.rules) ∧
          ∀ b texts, (e.serialize j b).1 = .ok texts → ∃ b' inner,
            (e.serialize i b').1 = .ok inner ∧ mediaText query inner ∈ texts := by
  -- One limit that suffices for both trees, since texts do not depend on it from there on.
  have hsame : (e.serialize k a).1 = (e'.serialize k a).1 := by
    let limit := max e.walkLimit e'.walkLimit
    calc (e.serialize k a).1
      _ = (e.serializeWithin limit k a).1 := (serializeWithin_limit (Nat.le_max_left _ _) k a).symm
      _ = (e'.serializeWithin limit k a).1 :=
        (serializeWithin_prune h limit .refl a a (.same a)).1
      _ = (e'.serialize k a).1 := serializeWithin_limit (Nat.le_max_right _ _) k a
  refine ⟨hsame, fun err herr => ?_, fun j s hj hs rule hrule query i hcontent => ?_⟩
  · have hnames : e'.names = e.names := congrArg Setting.names h.setting
    -- Errors are those of the pruned tree, which has no scopes but those that remain.
    refine (serializeWithin_fails _ k a err (hsame.symm.trans herr)).imp_right (.imp ?_ ?_)
    · rintro ⟨herr, j, hshown, hnone⟩
      have hj := h.remains hshown
      rw [h.scopes hj, Option.map_eq_none_iff] at hnone
      exact ⟨herr, j, hj, hnone⟩
    · rintro ⟨j, s', hshown, hs', rule, hrule, hlacks⟩
      have hj := h.remains hshown
      rw [h.scopes hj] at hs'
      obtain ⟨s, hs, rfl⟩ := Option.map_eq_some_iff.mp hs'
      exact ⟨j, s, hj, hs, rule, hrule, hnames ▸ hlacks⟩
  · have hstays : rule.stays e.supports = true := Rule.stays_media hcontent
    have hs' : e'.scope? j = some (s.prune e.supports) := by rw [h.scopes hj, hs]; rfl
    exact ⟨hj.tail ⟨s, hs, rule, hrule, hstays, _, hcontent⟩,
      ⟨_, hs', List.mem_filter.mpr ⟨hrule, hstays⟩⟩,
      fun b texts htexts => mediaText_mem_serialize hs hrule hcontent htexts⟩

end Engine

open Engine

/-- A library of a definition with two groups: one for a feature, with a rule that cannot be
    written, and one for media, with nothing inside. -/
def featureLibrary : Library Unit := fun key =>
  ⟨key, "Card", "card", false, .group (.supports "grid")
      (.addUnnamed (.cls .empty) fun _ => .done) fun _ =>
    .group (.media "print") .done fun _ => .done⟩

/-- Without the feature, only the group for media is written; with it, there is an error. -/
theorem serialize_pruned_of_features : ∃ steps s e',
    Run featureLibrary (create {} .empty .initial, ()) steps s ∧ s.1.supports "grid" = false ∧
      (s.1.scope? 2).isSome = true ∧ s.1.Pruned 1 e' ∧ e'.scope? 2 = none ∧
      (e'.serialize 1 .initial).1.toOption = some ["@media print\x7b\x7d"] ∧
      (s.1.serialize 1 .initial).1 = (e'.serialize 1 .initial).1 ∧
      ({ s.1 with supports := fun _ => true }.serialize 1 .initial).1 =
        .error (.unassignedName "") := by
  have hout : ((Session.performAll featureLibrary
      [.configure (fun n => n) (fun _ => false) (fun a => a), .process 2 0]
      (freshSession TextSink.empty)).any fun out =>
        !out.2.engine.supports "grid" && (out.2.engine.scope? 2).isSome &&
        ((out.2.engine.scope? 1).any fun t => t.rules.all fun rule =>
          !rule.stays out.2.engine.supports || rule.content.nested? = some 3) &&
        (out.2.engine.scope? 3).any (·.rules.isEmpty) &&
        (out.2.engine.serialize 1 .initial).1.toOption = some ["@media print\x7b\x7d"] &&
        ({ out.2.engine with supports := fun _ => true }.serialize 1 .initial).1 =
          .error (.unassignedName "")) = true := by decide +kernel
  obtain ⟨⟨steps, s⟩, hall, hp⟩ := (Option.any_eq_true _ _).mp hout
  simp only [Bool.and_eq_true, decide_eq_true_eq, Bool.not_eq_true'] at hp
  obtain ⟨⟨⟨⟨⟨hrefused, hlive⟩, hroot⟩, hinner⟩, htext⟩, herr⟩ := hp
  obtain ⟨t, ht, hkept⟩ := (Option.any_eq_true _ _).mp hroot
  obtain ⟨u, hu, hempty⟩ := (Option.any_eq_true _ _).mp hinner
  -- Of the two groups, the one for media is left, and there are none in it.
  have hremains : ∀ j, s.engine.Remains 1 j → j = 1 ∨ j = 3 := fun j hj => by
    induction hj with
    | refl => exact .inl rfl
    | tail _ hkeeps ih =>
      obtain ⟨v, hv, rule, hrule, hstays, condition, hcontent⟩ := hkeeps
      rcases ih with rfl | rfl
      · rw [ht] at hv
        cases hv
        have hgroup := List.all_eq_true.mp hkept rule hrule
        rw [hstays, hcontent] at hgroup
        exact .inr (Option.some.inj (of_decide_eq_true hgroup))
      · rw [hu] at hv
        cases hv
        rw [List.isEmpty_iff.mp hempty] at hrule
        cases hrule
  have hgone : ¬ s.engine.Remains 1 2 := fun h =>
    (hremains 2 h).elim (absurd · (by decide)) (absurd · (by decide))
  have hpruned := (Pruned.prune s.engine 1).erase hgone
  obtain ⟨hsame, -, -⟩ := serialize_pruned hpruned .initial
  exact ⟨steps, (s.engine, s.memory), _, .performAll .start hall, hrefused, hlive, hpruned,
    Dict.get?_erase_self _ _, hsame ▸ htext, hsame, herr⟩

end StyleBook
