import StyleBook.Proofs.Engine.Scopes
import StyleBook.Proofs.Text.AlikeTexts

namespace StyleBook

/-!
# How deep the text of a scope is nested

The text of a scope is written with a limit on how deep its groups are nested. It is the same for
every limit that is not less than the number of live scopes: with a larger one, only a group that is
nested in itself is still written, and never comes to an end.

* `Convert.Concur` — two conversions have results, or fail with the same error, whatever units are
  in force and whatever sources answer;
* `Engine.serializeWithin_concur` — whether a text can be written depends on no answer of a source;
* `Engine.serializeWithin_raise` — one more level changes no text but that of a scope whose limit
  was reached;
* `Engine.serializeWithin_limit` — the number of live scopes is enough.
-/

/-! ### Conversions that fail alike -/

namespace Convert

variable {α β γ δ : Type}

/-- **Both have results, or they fail with the same error,** whatever conversions see. -/
def Concur (c : Convert α) (d : Convert β) : Prop :=
  ∀ a b, (c a).1.map (fun _ => ()) = (d b).1.map fun _ => ()

namespace Concur

variable {c : Convert α} {d : Convert β}

/-- Both have results. -/
theorem pure (x : α) (y : β) : Concur (Pure.pure x) (Pure.pure y) := fun _ _ => rfl

/-- Both fail with the same error. -/
theorem throw (err : Error) : Concur (MonadExcept.throw err : Convert α)
    (MonadExcept.throw err : Convert β) := fun _ _ => rfl

theorem report (event : Event) : Concur (Convert.report event) (Convert.report event) :=
  fun _ _ => rfl

/-- Attempts always have results, whatever is attempted. -/
theorem attempt (c : Convert α) (d : Convert β) :
    Concur (Convert.attempt c) (Convert.attempt d) := fun _ _ => rfl

/-- One conversion after the other, if what the second ones come to depends on no result. -/
theorem bind {f : α → Convert γ} {g : β → Convert δ} (h : Concur c d)
    (hf : ∀ x y, Concur (f x) (g y)) : Concur (c >>= f) (d >>= g) := fun a b => by
  have hab := h a b
  rw [stateful_bind, stateful_bind]
  rcases hc : c a with ⟨err | x, a'⟩ <;> rcases hd : d b with ⟨err' | y, b'⟩ <;>
    rw [hc, hd] at hab <;> cases hab
  · rfl
  · exact hf x y a' b'

/-- A result that is known comes first. -/
theorem ofExcept_bind (r : Except Error α) {f : α → Convert γ} {g : α → Convert δ}
    (hf : ∀ x, Concur (f x) (g x)) :
    Concur (Convert.ofExcept r >>= f) (Convert.ofExcept r >>= g) := fun a b => by
  rw [stateful_bind, stateful_bind]
  cases r with
  | error err => rfl
  | ok x => exact hf x a b

/-- The results changed. -/
theorem map (h : Concur c d) (f : α → γ) (g : β → δ) :
    Concur (do return f (← c)) (do return g (← d)) := bind h fun x y => pure (f x) (g y)

/-- Which of the two is written first does not matter. -/
theorem symm (h : Concur c d) : Concur d c := fun a b => (h b a).symm

/-- Both fail, or none. -/
theorem error (h : Concur c d) {a b : Ambient} {err : Error} (hc : (c a).1 = .error err) :
    (d b).1 = .error err := by
  have hab := h a b
  rw [hc] at hab
  cases hd : (d b).1 with
  | error err' =>
    rw [hd] at hab
    cases hab
    rfl
  | ok y =>
    rw [hd] at hab
    cases hab

end Concur

end Convert

/-! ### What is written of rules -/

variable {setting : Setting}

namespace Styleset

/-- Whether a custom property is written does not depend on the state. -/
theorem customText_concur (property : CustomProperty) :
    Convert.Concur (customText setting property) (customText setting property) := by
  unfold customText
  cases property.name.render setting.names with
  | error err => exact .bind (.report _) fun _ _ => .pure _ _
  | ok name =>
    refine .bind (.attempt _ _) fun result result' => ?_
    cases result <;> cases result' <;> exact fun _ _ => rfl

/-- Nor does it for a declaration. -/
theorem propertyText_concur (name : String) (d : Declaration) :
    Convert.Concur (propertyText setting name d) (propertyText setting name d) := by
  unfold propertyText
  refine .bind (.attempt _ _) fun result result' => ?_
  cases result <;> cases result' <;> exact fun _ _ => rfl

/-- Nor for a styleset. -/
theorem declarations_concur (s : Styleset) :
    Convert.Concur (declarations setting s) (declarations setting s) := by
  have hcustom : ∀ list, Convert.Concur (customTexts setting list) (customTexts setting list) :=
    fun list => by
      induction list with
      | nil => exact .pure _ _
      | cons property _ ih => exact .bind (customText_concur property) fun _ _ => .map ih _ _
  have hproperties : ∀ list,
      Convert.Concur (propertyTexts setting list) (propertyTexts setting list) := fun list => by
    induction list with
    | nil => exact .pure _ _
    | cons entry _ ih => exact .bind (propertyText_concur entry.1 entry.2) fun _ _ => .map ih _ _
  exact .bind (hcustom s.custom) fun _ _ => .map (hproperties s.properties) _ _

mutual

/-- Whether a styleset can be written depends on no source. -/
theorem rules_concur (selector : String) : ∀ s : Styleset,
    Convert.Concur (rules setting selector s) (rules setting selector s)
  | ⟨_, _, dependents⟩ => by
    rw [rules]
    exact .bind (declarations_concur _) fun _ _ =>
    .map (dependentRules_concur selector dependents) _ _

theorem dependentRules_concur (owner : String) : ∀ list : List (Selector × Styleset),
    Convert.Concur (dependentRules setting owner list) (dependentRules setting owner list)
  | [] => by
    rw [dependentRules]
    exact .pure _ _
  | (_, styles) :: rest => by
    rw [dependentRules]
    exact .ofExcept_bind _ fun text => .bind (rules_concur text styles) fun _ _ =>
      .map (dependentRules_concur owner rest) _ _

end

end Styleset

/-- Nor for a rule. -/
theorem Rule.css_concur (r : Rule) : Convert.Concur (r.css setting) (r.css setting) := by
  unfold css
  split
  · next frames _ =>
    have hframes : ∀ list, Convert.Concur (framesText setting list) (framesText setting list) :=
      fun list => by
        induction list with
        | nil => exact .pure _ _
        | cons frame _ ih => exact .bind (Styleset.declarations_concur _) fun _ _ => .map ih _ _
    exact .ofExcept_bind _ fun _ => .map (hframes frames) _ _
  · refine .ofExcept_bind _ fun selector => ?_
    split
    · exact Styleset.rules_concur _ _
    · exact .pure _ _

namespace Engine

variable {e : Engine} {limit : Nat} {k : ScopeId} {a b : Ambient}

/-- Nor for the variables among rules. -/
theorem rootDeclarations_concur (rules : List Rule) :
    Convert.Concur (rootDeclarations setting rules) (rootDeclarations setting rules) := by
  induction rules with
  | nil => exact .pure _ _
  | cons rule rest ih =>
    have hrest : ∀ text text', Convert.Concur
        (do return text ++ (← rootDeclarations setting rest))
        (do return text' ++ (← rootDeclarations setting rest)) := fun _ _ => .map ih _ _
    rw [rootDeclarations]
    split
    · refine .ofExcept_bind _ fun name => .bind (.attempt _ _) fun result result' => ?_
      cases result <;> cases result' <;> exact fun _ _ => hrest _ _ _ _
    · exact hrest _ _

/-- Whether rules can be written depends on whether what is nested in them can. -/
theorem ruleTexts_concur {nested nested' : ScopeId → Convert (List String)}
    (hnested : ∀ j, Convert.Concur (nested j) (nested' j)) (rules : List Rule) :
    Convert.Concur (ruleTexts e nested rules) (ruleTexts e nested' rules) := by
  -- A group is the only rule that asks for what is nested, and does so at most once.
  have hgroup : ∀ condition j, Convert.Concur (ruleTexts.groupText nested condition j)
      (ruleTexts.groupText nested' condition j) := fun _ j => .map (hnested j) _ _
  induction rules with
  | nil => exact .pure _ _
  | cons rule rest ih =>
    rw [ruleTexts, ruleTexts]
    split
    · exact .map ih _ _
    · exact .map ih _ _
    · refine .bind ?_ fun _ _ => .map ih _ _
      unfold ruleTexts.groupTexts
      split
      · split
        · exact hgroup _ _
        · exact .bind (.report _) fun _ _ => .pure _ _
      · exact hgroup _ _
    · exact .bind rule.css_concur fun _ _ => .map ih _ _

/-- Whether the text of a scope can be written depends on whether what is nested in it can. -/
theorem serializeWithin_succ_concur {limit' : Nat}
    (h : ∀ j, Convert.Concur (e.serializeWithin limit j) (e.serializeWithin limit' j))
    (k : ScopeId) :
    Convert.Concur (e.serializeWithin (limit + 1) k) (e.serializeWithin (limit' + 1) k) := by
  rw [serializeWithin, serializeWithin]
  cases e.scope? k with
  | none => exact .throw _
  | some s =>
    exact .bind (rootDeclarations_concur s.rules) fun _ _ => .map (ruleTexts_concur h s.rules) _ _

/-- **Whether the text of a scope can be written depends on no source,** and
    neither does the error. -/
theorem serializeWithin_concur (limit : Nat) (k : ScopeId) :
    Convert.Concur (e.serializeWithin limit k) (e.serializeWithin limit k) := by
  induction limit generalizing k with
  | zero => exact .throw _
  | succ limit ih => exact serializeWithin_succ_concur ih k

/-! ### Limits -/

/-- Scopes correspond to themselves. -/
theorem AlikeScopes.same (e : Engine) (units : UnitTable) :
    AlikeScopes (.same units) e e where
  setting := .of_strict (fun _ _ h => h) _
  supports := rfl
  scopes := fun {k j} h => by
    cases h
    cases e.scope? k with
    | none => exact .none
    | some s => exact .some (List.forall₂_same.mpr fun rule _ => .same rule)

/-- The groups of the scope are nested deeper than the limit. -/
def TooDeep (e : Engine) (limit : Nat) (k : ScopeId) : Prop :=
  ∀ a, (e.serializeWithin limit k a).1 = .error (.endless "")

/-- It is so if it is so once. -/
theorem tooDeep_of_error (h : (e.serializeWithin limit k a).1 = .error (.endless "")) :
    e.TooDeep limit k := fun _ => (serializeWithin_concur limit k).error h

/-- **One more level changes no text but that of a scope whose limit was reached.** -/
theorem serializeWithin_raise (limit : Nat) (k : ScopeId) (a : Ambient) :
    e.TooDeep limit k ∨
    (e.serializeWithin limit k a).1 = (e.serializeWithin (limit + 1) k a).1 := by
  have hraise : ∀ limit {k j}, (Likeness.same a.units).scopes k j →
      Convert.AgreeOr (.same a.units) (· = .endless "")
        (e.serializeWithin limit k) (e.serializeWithin (limit + 1) j) := fun limit => by
    induction limit with
    | zero => exact fun _ _ _ _ => .inl ⟨_, rfl, rfl⟩
    | succ limit ih => exact fun hkj => serializeWithin_succ (.same e a.units) (fun h => ih h) hkj
  rcases hraise limit rfl a a (.same a) with ⟨err, rfl, herr⟩ | ⟨hresult, -⟩
  · exact .inl (tooDeep_of_error herr)
  · exact .inr hresult

/-- One more level changes nothing for any scope. -/
def DeepEnough (e : Engine) (limit : Nat) : Prop :=
  ∀ k, Convert.Concur (e.serializeWithin limit k) (e.serializeWithin (limit + 1) k)

/-- If one more level changes nothing, neither do two. -/
theorem DeepEnough.succ (h : e.DeepEnough limit) : e.DeepEnough (limit + 1) :=
  serializeWithin_succ_concur h

/-- Scopes are nested too deep with one more level, too. -/
theorem DeepEnough.of_tooDeep (h : ∀ k, e.TooDeep limit k → e.TooDeep (limit + 1) k) :
    e.DeepEnough limit := fun k a b => by
  rcases serializeWithin_raise limit k a with hdeep | hsame
  · rw [hdeep a, h k hdeep b]
  · rw [hsame]
    exact serializeWithin_concur (limit + 1) k a b

section Counting

open Classical in
/-- The live scopes whose groups are not nested too deep. -/
noncomputable def shallow (e : Engine) (limit : Nat) : Finset ScopeId :=
  e.scopes.keys.toFinset.filter fun k => ¬ e.TooDeep limit k

/-- A shallow scope is there, and the limit suffices for it. -/
theorem mem_shallow : k ∈ shallow e limit ↔ k ∈ e.scopes.keys ∧ ¬ e.TooDeep limit k := by
  classical
  unfold shallow
  rw [Finset.mem_filter, List.mem_toFinset]

/-- There are no more of them than live scopes. -/
theorem card_shallow_le (e : Engine) (limit : Nat) : (shallow e limit).card ≤ e.scopes.length := by
  classical
  have hkeys : e.scopes.keys.toFinset.card ≤ e.scopes.length :=
    (List.toFinset_card_le _).trans_eq (List.length_map _)
  exact (Finset.card_filter_le _ _).trans hkeys

/-- With one more level, no more scopes are nested too deep. -/
theorem shallow_subset : shallow e limit ⊆ shallow e (limit + 1) := fun k hk => by
  obtain ⟨hlive, hn⟩ := mem_shallow.mp hk
  refine mem_shallow.mpr ⟨hlive, fun hdeep => ?_⟩
  obtain ⟨a⟩ : Nonempty Ambient := ⟨.initial⟩
  rcases serializeWithin_raise limit k a with hdeep' | hsame
  · exact hn hdeep'
  · exact hn (tooDeep_of_error (hsame.trans (hdeep a)))

/-- If the same scopes are nested too deep with one more level, it changes nothing. -/
theorem DeepEnough.of_shallow (heq : shallow e (limit + 1) = shallow e (limit + 2)) :
    e.DeepEnough (limit + 1) := .of_tooDeep fun k hdeep => by
  by_contra hn
  cases hlive : e.scope? k with
  | none =>
    have herr := hdeep .initial
    rw [serializeWithin, hlive] at herr
    cases herr
  | some s =>
    have hmem : k ∈ shallow e (limit + 1) := heq ▸ mem_shallow.mpr ⟨mem_keys_of_scope? hlive, hn⟩
    exact (mem_shallow.mp hmem).2 hdeep

/-- If one more level changes nothing, the same scopes are nested too deep with it. -/
theorem DeepEnough.shallow_eq (h : e.DeepEnough limit) :
    shallow e limit = shallow e (limit + 1) := by
  ext k
  rw [mem_shallow, mem_shallow]
  refine and_congr_right fun _ => not_congr ⟨fun hdeep _ => (h k).error (hdeep .initial),
    fun hdeep _ => (h k).symm.error (hdeep .initial)⟩

/-- **As many levels as there are live scopes are enough.** -/
theorem deepEnough (hlimit : e.walkLimit ≤ limit) : e.DeepEnough limit := by
  obtain ⟨more, rfl⟩ : ∃ more, limit = more + 1 := ⟨limit - 1, by unfold walkLimit at hlimit; omega⟩
  have hdeep : ∀ m, (shallow e (m + 1)).card = (shallow e (m + 2)).card →
      e.DeepEnough (m + 1) := fun m heq =>
    .of_shallow (Finset.eq_of_subset_of_card_le shallow_subset heq.ge)
  have hmono : Monotone fun m => (shallow e (m + 1)).card :=
    monotone_nat_of_le_succ fun _ => Finset.card_le_card shallow_subset
  -- Once one more level changes nothing, no further one does.
  have hstable : ∀ m, e.scopes.length ≤ m →
      (shallow e (m + 1)).card = (shallow e (e.scopes.length + 1)).card := fun m hm =>
    Nat.stabilises_of_monotone hmono (fun _ => card_shallow_le e _)
      (fun m heq => by rw [(hdeep m heq).succ.shallow_eq]) hm
  have hmore : e.scopes.length ≤ more := by
    unfold walkLimit at hlimit
    omega
  exact hdeep more ((hstable more hmore).trans (hstable (more + 1) (by omega)).symm)

end Counting

/-- **A scope has the same text for every limit** that is not less than the number of live
    scopes. -/
theorem serializeWithin_limit (hlimit : e.walkLimit ≤ limit) (k : ScopeId) (a : Ambient) :
    (e.serializeWithin limit k a).1 = (e.serialize k a).1 := by
  induction limit, hlimit using Nat.le_induction with
  | base => rfl
  | succ limit hlimit ih =>
    rw [← ih]
    rcases serializeWithin_raise limit k a with hdeep | hsame
    · rw [hdeep a, (deepEnough hlimit k).error (hdeep a)]
    · exact hsame.symm

end Engine

end StyleBook
