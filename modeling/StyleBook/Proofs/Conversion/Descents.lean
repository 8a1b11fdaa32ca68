import StyleBook.Proofs.Conversion.CatalogChecks

namespace StyleBook

/-!
# Conversions descend

By the standard catalog, everything that a conversion asks for is about a lighter value, or about
the same value by a recipe of lower rank. So it needs no list of the categories that were followed,
and it never meets one of them again.

* `Recipe.rank` — how many steps a recipe may take on one value, if each category takes some number;
* `Catalog.Ranked`, `Catalog.standard_ranked` — no category takes more steps than it is allowed;
* `Conversion.Calls.descends` — what is asked for is less, in weight and then in rank;
* `Conversion.text_followed` — what was followed before makes no difference;
* `Conversion.convert_unique` — conversions are the only solution of their equations;
* `Conversion.standard_terminates` — all this for the standard catalog.
-/

/-! ### Ranks -/

/-- **The rank of a recipe:** above those of all recipes that it leads to on the same value, where
    categories have the levels that are given. -/
def Recipe.rank (level : Category → Nat) : Recipe → Nat
  | .plain => 0
  | .shaped _ => 0
  | .category c => level c
  | .own _ => 0
  | .leading _ inner => inner.rank level + 1
  | .enclosed _ _ inner => inner.rank level + 1
  | .choice _ yes no => max (yes.rank level) (no.rank level) + 1
  | .each item _ => item.rank level + 1
  | .headed first _ => first.rank level + 1
  | .labelled _ _ inner => inner.rank level + 1

/-- **The levels fit the catalog:** each category is above its recipe. -/
def Catalog.Ranked (level : Category → Nat) (catalog : Catalog) : Prop :=
  ∀ c recipe, catalog.categories.get? c = some recipe → recipe.rank level < level c

/-- The levels of the standard categories: those that write numbers, shadows and texts are lowest,
    and those that write lengths are above. -/
def Standard.level : Category → Nat
  | .position | .gridTrack => 2
  | .atPosition => 3
  | .borderRadius | .gridTrackList => 4
  | _ => 1

/-- **The levels fit the standard catalog.** -/
theorem Catalog.standard_ranked : Catalog.standard.Ranked Standard.level := by
  intro c recipe h
  have hmem := Dict.mem_of_get? h
  have hlevels : ∀ entry ∈ Standard.categories,
      entry.2.rank Standard.level < Standard.level entry.1 := by
    simp [Standard.categories, Recipe.numeric, Recipe.numbers, Standard.gridItem, Recipe.rank,
      Standard.level]
  exact hlevels _ hmem

namespace Conversion

variable {level : Category → Nat}

/-- A recipe is above the one that it passes a value on to. -/
theorem Passes.rank_lt {recipe inner : Recipe} (h : Passes recipe inner) :
    inner.rank level < recipe.rank level := by
  cases h <;> simp only [Recipe.rank] <;> omega

/-- The weight of the value, and the rank of the recipe. -/
def Task.measure (level : Category → Nat) (t : Task) : Nat × Nat :=
  (t.value.weight, t.recipe.rank level)

/-- **What a conversion asks for is less:** about a lighter value, or by a recipe of lower rank. -/
theorem Calls.descends {catalog : Catalog} {t t' : Task} (hlevel : catalog.Ranked level)
    (h : Calls catalog t t') : Prod.Lex (· < ·) (· < ·) (t'.measure level) (t.measure level) := by
  rcases h with h | h
  · rcases h.lighter with ⟨hlighter, -⟩ | ⟨hvalue, ⟨c, hrecipe, -, hinner, -⟩ | ⟨-, hpasses⟩⟩
    · exact .left _ _ hlighter
    · have hrank : t'.recipe.rank level < t.recipe.rank level := by
        rw [hrecipe]
        exact hlevel c _ hinner
      unfold Task.measure
      rw [hvalue]
      exact .right _ hrank
    · unfold Task.measure
      rw [hvalue]
      exact .right _ hpasses.rank_lt
  · exact .left _ _ h.lighter

/-- No chain of such steps is endless. -/
theorem measure_wf (level : Category → Nat) : WellFounded fun t' t : Task =>
    Prod.Lex (· < ·) (· < ·) (t'.measure level) (t.measure level) :=
  InvImage.wf _ (WellFounded.prod_lex Nat.lt_wfRel.wf Nat.lt_wfRel.wf)

/-! ### What was followed -/

section Followed

variable {s : Setting}

/-- The task without what was followed. -/
def Task.afresh (t : Task) : Task := ⟨[], t.recipe, t.value⟩

/-- If the recipe is below all categories that were followed, it is none of them, and neither is any
    recipe that it leads to on the value. -/
def Task.Below (level : Category → Nat) (t : Task) : Prop :=
  ∀ c ∈ t.followed, t.recipe.rank level < level c

/-- Nothing was followed before the first step. -/
theorem Task.below_afresh (t : Task) : t.afresh.Below level := nofun

/-- Each step stays below what was followed. -/
theorem Leads.below {catalog : Catalog} {t t' : Task} (hlevel : catalog.Ranked level)
    (h : Leads catalog t t') (ht : t.Below level) : t'.Below level := by
  rcases h.lighter
    with ⟨-, hfollowed⟩ | ⟨-, ⟨c, hrecipe, -, hinner, hfollowed⟩ | ⟨hfollowed, hpasses⟩⟩
  · intro c hc
    simp [hfollowed] at hc
  · have hrank : t'.recipe.rank level < level c := hlevel c _ hinner
    intro c' hc'
    rw [hfollowed, List.mem_cons] at hc'
    rcases hc' with rfl | hc'
    · exact hrank
    · -- The category that is followed is below those before it, and its recipe is below it.
      have hbelow := ht c' hc'
      rw [hrecipe] at hbelow
      exact hrank.trans hbelow
  · intro c hc
    rw [hfollowed] at hc
    exact hpasses.rank_lt.trans (ht c hc)

/-- A step that does not meet a category again does not look at what was followed. -/
theorem outline_afresh {ask operand : Task → Convert String} {t : Task}
    (hask : ∀ t', ask t' = ask t'.afresh) (ht : t.Below level) :
    outline s ask operand t = outline s ask operand t.afresh := by
  obtain ⟨followed, recipe, v⟩ := t
  unfold Task.afresh
  -- Only a category looks at what was followed, and it is not among it, being above its level.
  cases recipe with
  | category c =>
    have hc : c ∉ followed := fun hc => lt_irrefl _ (ht c hc)
    rw [outline, outline, if_neg hc, if_neg List.not_mem_nil]
    cases s.catalog.categories.get? c with
    | none => rfl
    | some inner =>
      show ask ⟨c :: followed, inner, v⟩ = ask ⟨[c], inner, v⟩
      rw [hask, hask ⟨[c], inner, v⟩]
      rfl
  | leading text inner =>
    rw [outline, outline, hask]
    rfl
  | enclosed opening closing inner =>
    rw [outline, outline, hask]
    rfl
  | choice test yes no =>
    rw [outline, outline, hask ⟨followed, yes, v⟩, hask ⟨followed, no, v⟩]
    rfl
  | each item separator =>
    cases v with
    | list items => rfl
    | _ => exact hask _
  | headed first others =>
    cases v with
    | list items => cases items <;> rfl
    | _ => exact hask _
  | labelled label field inner =>
    cases v with
    | record fields => rfl
    | _ => exact hask _
  | _ => rfl

/-- **What was followed makes no difference,** if the recipe is below it. -/
theorem text_afresh (hlevel : s.catalog.Ranked level) (t : Task) :
    t.Below level → t.text s = t.afresh.text s := by
  induction t using (measure_wf level).induction with
  | _ t ih =>
    intro ht
    -- Both are made of the same texts, for which nothing has to be followed.
    have hmade : ∀ u : Task, u.measure level = t.measure level → u.Below level →
        u.text s = outline s (fun u' => u'.afresh.text s) (Task.text ⟨.standard, s.names⟩) u := by
      intro u hmeasure hu
      rw [text_eq]
      refine outline_congr ⟨rfl, fun _ => rfl, fun _ => rfl⟩ (fun u' h => ?_) fun _ _ => rfl
      refine ih u' ?_ (h.below hlevel hu)
      rw [← hmeasure]
      exact Calls.descends hlevel (.inl h)
    rw [hmade t rfl ht, hmade t.afresh rfl t.below_afresh]
    exact outline_afresh (fun _ => rfl) ht

/-- **Conversions satisfy the equations in which nothing is followed.** -/
theorem convert_eq (hlevel : s.catalog.Ranked level) (recipe : Recipe) (v : Value) :
    convert s recipe v = outline s (fun t => convert s t.recipe t.value)
      (fun t => convert ⟨.standard, s.names⟩ t.recipe t.value) ⟨[], recipe, v⟩ := by
  show Task.text s ⟨[], recipe, v⟩ = _
  rw [text_eq]
  refine outline_congr ⟨rfl, fun _ => rfl, fun _ => rfl⟩ (fun t h => ?_) fun t h => ?_
  · exact text_afresh hlevel t (h.below hlevel nofun)
  · cases h
    rfl

end Followed

/-! ### The standard catalog -/

section Standard

variable (names : Names)

/-- **A way to write values by recipes that satisfies the equations of conversions,** without a list
    of what was followed, all by the standard catalog. -/
def Solves (write : Recipe → Value → Convert String) : Prop :=
  ∀ recipe v, write recipe v = outline ⟨.standard, names⟩ (fun t => write t.recipe t.value)
    (fun t => write t.recipe t.value) ⟨[], recipe, v⟩

/-- **Conversions by the standard catalog are the only solution.** -/
theorem solves_iff (write : Recipe → Value → Convert String) :
    Solves names write ↔ write = convert ⟨.standard, names⟩ := by
  have hconvert : Solves names (convert ⟨.standard, names⟩) :=
    fun recipe v => convert_eq Catalog.standard_ranked recipe v
  constructor
  · intro hwrite
    have hsame : ∀ t : Task,
      write t.recipe t.value = convert ⟨.standard, names⟩ t.recipe t.value := by
      intro t
      induction t using (measure_wf Standard.level).induction with
      | _ t ih =>
        rw [hwrite, hconvert]
        refine outline_congr ⟨rfl, fun _ => rfl, fun _ => rfl⟩ (fun t' h => ?_) fun t' h => ?_
        · exact ih t' (Calls.descends (t := t.afresh) Catalog.standard_ranked (.inl h))
        · exact ih t' (Calls.descends (t := t.afresh) Catalog.standard_ranked (.inr h))
    funext recipe v
    exact hsame ⟨[], recipe, v⟩
  · rintro rfl
    exact hconvert

/-- No conversion of this kind is said to be endless. -/
theorem convert_never_endless {recipe : Recipe} (h : recipe.All Recipe.Tolerant) (v : Value) :
    Convert.Fails (fun err => ∀ chain, err ≠ .endless chain)
    (convert ⟨.standard, names⟩ recipe v) := by
  have hall : ∀ t : Task, t.recipe.All Recipe.Tolerant →
      Convert.Fails (fun err => ∀ chain, err ≠ .endless chain)
        (convert ⟨.standard, names⟩ t.recipe t.value) := by
    -- On the measure: what a conversion asks for is less.
    intro t
    induction t using (measure_wf Standard.level).induction with
    | _ t ih =>
      obtain ⟨followed, recipe, v⟩ := t
      intro ht
      rw [convert_eq Catalog.standard_ranked]
      refine outline_fails (fun err hobjects chain => ?_) fun t' h => ?_
      · cases hobjects with
        | unsupported => exact fun h => by cases h
        | nameless h =>
          unfold NameRef.render at h
          split at h <;> cases h
          exact fun h => by cases h
        | thrown h => exact absurd h (ht.here err)
        | endless h => cases h
        | missing => exact fun h => by cases h
      · exact ih t' (Calls.descends (t := ⟨[], recipe, v⟩) Catalog.standard_ranked (.inl h))
          (h.all Catalog.standard_tolerant ht)
  exact hall ⟨[], recipe, v⟩ h

/-- **Conversions by the standard catalog come to an end.** What a conversion asks for, of parts of
    the value, of the value by another recipe, or of operands, is less in weight and then in rank.
    So the equations of conversions have one solution, which needs no list of what was followed, and
    no value at the default, of a category, of a property or of a call is said to be endless. -/
theorem standard_terminates :
    (∀ t t' : Task, Calls .standard t t' →
      Prod.Lex (· < ·) (· < ·) (t'.measure Standard.level) (t.measure Standard.level)) ∧
    ∀ names : Names,
      (∀ write, Solves names write ↔ write = convert ⟨.standard, names⟩) ∧
      ∀ (v : Value) (a : Ambient) (chain : String),
        (convert ⟨.standard, names⟩ .plain v a).1 ≠ .error (.endless chain) ∧
        (∀ c, (Setting.category ⟨.standard, names⟩ c v a).1 ≠ .error (.endless chain)) ∧
        (∀ function repeating,
          Setting.call ⟨.standard, names⟩ function v repeating =
              convert ⟨.standard, names⟩ .plain (.call function v repeating) ∧
            (Setting.call ⟨.standard, names⟩ function v repeating a).1 ≠ .error (.endless chain)) ∧
        ∀ property, (Setting.property ⟨.standard, names⟩ property v a).1 ≠
        .error (.endless chain) := by
  refine ⟨fun t t' h => Calls.descends Catalog.standard_ranked h, fun names =>
    ⟨solves_iff names, fun v a chain => ?_⟩⟩
  have hnever : ∀ {recipe : Recipe} {v : Value}, recipe.All Recipe.Tolerant →
      (convert ⟨.standard, names⟩ recipe v a).1 ≠ .error (.endless chain) :=
    fun h herr => convert_never_endless names h _ a _ herr chain rfl
  have hplain : Recipe.plain.All Recipe.Tolerant := .plain nofun
  refine ⟨hnever hplain, fun c => hnever (.category nofun), fun function repeating => ⟨?_, ?_⟩,
    fun property => hnever ?_⟩
  · exact (convert_call _ function v repeating).symm
  · rw [← convert_call]
    exact hnever hplain
  -- The recipe of a property is made of the one for a single value.
  · have hone : ∀ kind : PropertyKind, kind.one.All Recipe.Tolerant := fun kind => by
      unfold PropertyKind.one
      cases kind.category? with
      | some c => exact .category nofun
      | none => exact hplain
    exact PropertyKind.all_recipe (hone _) (fun _ _ _ => nofun) fun _ _ => nofun

end Standard

end Conversion

end StyleBook
