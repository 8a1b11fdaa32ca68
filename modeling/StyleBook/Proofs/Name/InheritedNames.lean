import StyleBook.Proofs.Name.HandedDown
import StyleBook.Proofs.Script.Extensions

namespace StyleBook

/-!
# Names that definitions inherit

The names of a definition's slots are those of the definition that it extends last, unless its rules
spell others, whatever else it declares under these slots and whatever a program does. What is
nested in it has the same names. A definition that extends two others has none
of the names of the first.

* `Run.handed` — names are handed down in every run;
* `Engine.Unspelled` — no rule on the way from a scope to one nested in it spells a slot's name;
* `Engine.Handed.handed_down` — a slot has the name that it has in the scope that is extended;
* `Session.inherited_names` — so it has that of the definition that is extended last;
* `names_lost` — but not that of one that is extended before.
-/

namespace Engine

variable {e e' : Engine}

/-- A change of users and of states keeps names handed down between calls. -/
theorem Handed.reused (h : Handed e) (hs : Sound [] e)
    (hr : Rescoped (fun _ => Scope.Reused True) e e') : Handed e' :=
  h.spared (hr.mono fun _ _ _ _ hR => hR.resourced) fun hs₀ _ _ => .inl (hs.settled hs₀)

/-- An engine starts without names. -/
theorem handed_create (naming : NamingConfig) (catalog : Catalog) (ambient : Ambient) :
    Handed (create naming catalog ambient) := by
  have hnone : ∀ {k s}, (create naming catalog ambient).scope? k ≠ some s := fun h => by cases h
  exact ⟨fun hs => absurd hs hnone, fun hs => absurd hs hnone, fun hs => absurd hs hnone,
    fun hs => absurd hs hnone⟩

/-- **Calls keep names handed down.** -/
theorem handed_callwise : Callwise (Preserves Handed) :=
  handed_survives.callwise (fun hd hs hr _ => hd.reused hs hr) fun {e e' id slot r} hd h => by
    have hhands := nameForWithin_hands e.walkLimit id slot e
    have hrun : nameForWithin e.walkLimit id slot e = (r, e') := h
    rw [hrun] at hhands
    exact hhands.handed hd

end Engine

open Engine

variable {μ σ : Type} [Sink σ] {library : Library μ} {naming : NamingConfig} {catalog : Catalog}
  {ambient : Ambient}

/-- **Names are handed down in every run.** -/
theorem Run.handed {memory : μ} {s : Engine × μ} {steps : List (Request μ × Answer)}
    (h : Run library (create naming catalog ambient, memory) steps s) : Handed s.1 := by
  have hs := sound_create naming catalog ambient
  exact (h.callwise handed_callwise hs hs.unnamed (handed_create naming catalog ambient)).2

namespace Engine

variable {e : Engine} {root k : ScopeId} {slot : String}

/-- No rule of the scope `k`, or of one that it is nested in up to `root`, spells a name for the
    slot. -/
def Unspelled (e : Engine) (root k : ScopeId) (slot : String) : Prop :=
  ∀ {j u name}, e.Inside root j → e.Inside j k → e.scope? j = some u → ¬ u.Spells slot name

/-- The name of a slot is known, or it comes from elsewhere. -/
theorem nameForWithin_fst {s : Scope} (limit : Nat) (hs : e.scope? k = some s) :
    (nameForWithin (limit + 1) k slot e).1 = match s.nameOf? slot with
      | some name => .ok name
      | none => (foundName limit s slot e).1 := by
  rw [nameForWithin_succ, stateful_bind_ok (requireScope_some hs)]
  cases s.nameOf? slot with
  | some name => rfl
  | none =>
    simp only
    rcases hrun : foundName limit s slot e with ⟨err | name, e₁⟩
    · rw [stateful_bind_error hrun]
    · rw [stateful_bind_ok hrun]
      rfl

/-- **A slot has the name that it has in the scope that is extended,** also in the scopes that are
    nested in the extending one, if it is declared there with a kind that has names, and no rule
    spells another one. -/
theorem Handed.handed_down {b : ScopeId} {s t : Scope} (h : Handed e) (hl : Linked e)
    (hs : e.scope? root = some s) (ho : s.owner = none) (hb : s.base = some b)
    (ht : e.scope? b = some t) (hslot : t.NamesSlot slot) (hk : e.Inside root k)
    (hspells : e.Unspelled root k slot) :
    ∃ name, t.nameOf? slot = some name ∧ (nameFor k slot e).1 = .ok name := by
  obtain ⟨name, hname⟩ := h.base_named hs hb ht hslot
  -- A name that a scope on the way has is this one, and so is the one that is found from there.
  suffices hall : (∀ {u other}, e.scope? k = some u → u.nameOf? slot = some other → other = name) ∧
      ∀ limit, e.below id k < limit → (nameForWithin limit k slot e).1 = .ok name from
    ⟨name, hname, hall.2 _ (below_lt_walkLimit e k)⟩
  induction hk with
  | root hroot =>
    cases hs.symm.trans hroot
    have hknown : ∀ {u other}, e.scope? root = some u → u.nameOf? slot = some other →
        other = name := fun hu hother => by
      cases hs.symm.trans hu
      obtain ⟨n, hn⟩ | hbase := h.handed hs ho hb ht hslot hother
      · exact absurd hn (hspells (.root hs) (.root hs) hs)
      · exact Option.some.inj (hbase.symm.trans hname)
    refine ⟨hknown, fun limit hlimit => ?_⟩
    obtain ⟨rest, rfl⟩ := Nat.exists_eq_succ_of_ne_zero (Nat.ne_zero_of_lt hlimit)
    rw [nameForWithin_fst rest hs]
    cases hother : s.nameOf? slot with
    | some other => rw [hknown hs hother]
    | none =>
      obtain ⟨n, hn, hfound⟩ := h.base_found rest hs ho hb ht hslot
      cases hname.symm.trans hn
      simp only [hfound]
  | @nested k o u hu howner hinner ih =>
    obtain ⟨hlt, v, hv, -⟩ := hl.owner_child hu howner
    have hself : e.Inside root k := .nested hu howner hinner
    obtain ⟨hknown, hfound⟩ := ih fun hj hin => hspells hj (.nested hu howner hin)
    have hknown' : ∀ {other}, u.nameOf? slot = some other → other = name := fun hother => by
      obtain ⟨n, hn⟩ | ⟨n, hn⟩ | howned := h.owned hu howner hv hother
      · exact absurd hn (hspells hself (.root hu) hu)
      · exact absurd hn (hspells hinner (.nested hu howner (.root hv)) hv)
      · exact hknown hv howned
    refine ⟨fun hu' hother => ?_, fun limit hlimit => ?_⟩
    · cases hu.symm.trans hu'
      exact hknown' hother
    · obtain ⟨rest, rfl⟩ := Nat.exists_eq_succ_of_ne_zero (Nat.ne_zero_of_lt hlimit)
      rw [nameForWithin_fst rest hu]
      cases hother : u.nameOf? slot with
      | some other => rw [hknown' hother]
      | none =>
        have hbelow : e.below id o < e.below id k :=
          below_lt_of_live hlt (mem_keys_of_scope? hv)
        simp only [foundName_some howner]
        exact hfound rest (by omega)

end Engine

/-- **A definition inherits names:** when it has been processed, each slot that the definition it
    extends last declares with a kind that has names has the name that it has there, at any time,
    in its scope and in the scopes nested in it, unless a rule there spells another one. -/
theorem Session.inherited_names {requests later : List (Request μ)}
    {before after : List (Request μ × Answer)} {limit key : Nat} {id base : ScopeId} {e : Engine}
    {memory m : μ} {sink : σ} {s₁ s₂ : Session μ σ}
    (h₁ : performAll library requests ⟨create naming catalog ambient, memory, sink⟩ =
      some (before, s₁)) (hnew : s₁.engine.scopeOf? (library key).key = none)
    (h : process library limit key (s₁.engine, s₁.memory) = some (.ok id, (e, m)))
    (hext : (Spot.start library limit key (s₁.engine, s₁.memory)).ExtendsLast library base)
    (h₂ : performAll library later ⟨e, m, s₁.sink⟩ = some (after, s₂)) :
    ∃ t, s₂.engine.scope? base = some t ∧ ∀ k slot, s₂.engine.Inside id k → t.NamesSlot slot →
      s₂.engine.Unspelled id k slot →
        ∃ name, t.nameOf? slot = some name ∧ (nameFor k slot s₂.engine).1 = .ok name := by
  -- The base is the one that the definition has extended last, and stays so through all later
  -- calls.
  have hstart : Run library (create naming catalog ambient, memory) before
      (s₁.engine, s₁.memory) := .performAll .start h₁
  have hs₁ := hstart.sound (sound_create naming catalog ambient)
  obtain ⟨hs, -⟩ := (process_builds hs₁ h).1.sound hs₁
  have hrun := hstart.performAll (performAll_process h h₂)
  have hd : Handed s₂.engine := hrun.handed
  have hl : Linked s₂.engine := (hrun.sound (sound_create naming catalog ambient)).linked
  obtain ⟨t₀, ht₀, ho₀, hb₀⟩ := process_base hs₁ hnew h hext
  obtain ⟨s, hs₀, hR⟩ := performAll_continued h₂ hs id t₀ ht₀
  have ho : s.owner = none := by rw [hR.eq_names]; exact ho₀
  have hb : s.base = some base := by rw [hR.eq_names]; exact hb₀
  obtain ⟨t, ht, -⟩ := hd.base_ready hs₀ hb
  exact ⟨t, ht, fun k slot hk hslot hspells =>
    hd.handed_down hl hs₀ ho hb ht hslot hk hspells⟩

/-- A library of two definitions with a slot each, one that extends the first of them and declares
    its slot again, and one that extends both. -/
def inheritingLibrary : Library Unit
  | 0 => ⟨0, "First", "first", false, .add "spin" (.animation []) fun _ => .done⟩
  | 1 => ⟨1, "Second", "second", false, .add "fade" (.animation []) fun _ => .done⟩
  | 2 => ⟨2, "Single", "single", false, .extend 0 fun _ => .add "spin" (.cls .empty) fun _ => .done⟩
  | key => ⟨key, "Double", "double", false, .extend 0 fun _ => .extend 1 fun _ => .done⟩

/-- A scope whose rules have no names of their own spells none. -/
theorem Scope.not_spells {s : Scope} (h : s.rules.all (·.explicitName = none) = true)
    (slot name : String) : ¬ s.Spells slot name := by
  rintro ⟨rule, hrule, -, -, hname⟩
  have hnone := of_decide_eq_true (List.all_eq_true.mp h rule hrule)
  rw [hname] at hnone
  cases hnone

/-- A rule that can be found declares its slot. -/
theorem Scope.namesSlot_iff {s : Scope} {slot : String} : s.NamesSlot slot ↔
    (s.rules.any fun rule => rule.slot = some slot && rule.kind.isNamed) = true := by
  simp only [Scope.NamesSlot, List.any_eq_true, Bool.and_eq_true, decide_eq_true_eq]

/-- A result that is found to be a success. -/
theorem eq_ok_of_toOption {α : Type} {r : Except Error α} {a : α} (h : r.toOption = some a) :
    r = .ok a := by
  cases r with
  | error err => cases h
  | ok b => rw [Option.some.inj h]

/-- The outcome of a computation that is found to succeed. -/
theorem any_toOption_eq {α σ : Type} [DecidableEq α] {out : Option (Except Error α × σ)} {a : α}
    (h : out.any (·.1.toOption = some a) = true) : ∃ s, out = some (.ok a, s) := by
  obtain ⟨⟨r, s⟩, rfl, hr⟩ := (Option.any_eq_true _ _).mp h
  have hok : r = .ok a := eq_ok_of_toOption (of_decide_eq_true hr)
  exact ⟨s, by rw [hok]⟩

/-- A slot that a definition declares again has the name that it has in the extended one. -/
theorem inherited_name_of_sample : ∃ e m t name,
    process inheritingLibrary 3 2 (create {} .empty .initial, ()) = some (.ok 1, (e, m)) ∧
      (Spot.start inheritingLibrary 3 2 (create {} .empty .initial, ())).ExtendsLast
        inheritingLibrary 2 ∧
      e.scope? 2 = some t ∧ e.Inside 1 1 ∧ t.NamesSlot "spin" ∧ e.Unspelled 1 1 "spin" ∧
      t.nameOf? "spin" = some name ∧ (nameFor 1 "spin" e).1 = .ok name := by
  have hout : ((process inheritingLibrary 3 2 (create {} .empty .initial, ())).any
      (·.1.toOption = some 1)) = true := by decide +kernel
  have hscopes : ((process inheritingLibrary 3 2 (create {} .empty .initial, ())).any fun out =>
      (out.2.1.scope? 1).any (fun s => s.owner = none && s.rules.all (·.explicitName = none)) &&
        (out.2.1.scope? 2).any (·.rules.any fun rule =>
          rule.slot = some "spin" && rule.kind.isNamed)) = true := by decide +kernel
  have hbase : (((calls inheritingLibrary 3).process 0
      (Spot.start inheritingLibrary 3 2 (create {} .empty .initial, ())).state).any
        (·.1.toOption = some 2)) = true := by decide +kernel
  obtain ⟨⟨e, m⟩, hprocess⟩ := any_toOption_eq hout
  obtain ⟨s₁, hextended⟩ := any_toOption_eq hbase
  rw [hprocess, Option.any_some, Bool.and_eq_true] at hscopes
  obtain ⟨s, hs, hspells⟩ := (Option.any_eq_true _ _).mp hscopes.1
  obtain ⟨t, ht, hslot⟩ := (Option.any_eq_true _ _).mp hscopes.2
  rw [Bool.and_eq_true] at hspells
  replace hslot := Scope.namesSlot_iff.mpr hslot
  -- No scope but the definition's own is between itself and itself.
  have hunspelled : e.Unspelled 1 1 "spin" := fun {j u name} _ hin hu => by
    cases hin.eq_of_owner ⟨s, hs, of_decide_eq_true hspells.1⟩
    cases hs.symm.trans hu
    exact Scope.not_spells hspells.2 "spin" name
  have hext : (Spot.start inheritingLibrary 3 2 (create {} .empty .initial, ())).ExtendsLast
      inheritingLibrary 2 :=
    Spot.Extending.extendsLast ⟨0, _, s₁, rfl, hextended⟩ fun _ _ => trivial
  have hbefore : Session.performAll inheritingLibrary []
      ⟨create {} .empty .initial, (), TextSink.empty⟩ =
      some ([], freshSession TextSink.empty) := rfl
  have hafter : Session.performAll inheritingLibrary [] ⟨e, m, TextSink.empty⟩ =
      some ([], ⟨e, m, TextSink.empty⟩) := rfl
  obtain ⟨t', ht', hnames⟩ := Session.inherited_names hbefore rfl hprocess hext hafter
  cases ht.symm.trans ht'
  obtain ⟨name, hname, hfor⟩ := hnames 1 "spin" (.root hs) hslot hunspelled
  exact ⟨e, m, t, name, hprocess, hext, ht, .root hs, hslot, hunspelled, hname, hfor⟩

/-- **Only the definition that is extended last hands its names down:** a slot of one that is
    extended before, which nothing else declares and no rule names, gets another name. -/
theorem names_lost : ∃ e m s t u,
    process inheritingLibrary 3 3 (create {} .empty .initial, ()) = some (.ok 1, (e, m)) ∧
      (Spot.start inheritingLibrary 3 3 (create {} .empty .initial, ())).Extending
        inheritingLibrary 2 ∧
      (Spot.start inheritingLibrary 3 3 (create {} .empty .initial, ())).ExtendsLast
        inheritingLibrary 3 ∧
      e.scope? 1 = some s ∧ e.scope? 2 = some t ∧ e.scope? 3 = some u ∧ t.NamesSlot "spin" ∧
      ¬ u.NamesSlot "spin" ∧ (∀ name, ¬ s.Spells "spin" name) ∧ (∀ name, ¬ t.Spells "spin" name) ∧
      t.nameOf? "spin" = some "first_spin" ∧ (nameFor 1 "spin" e).1 = .ok "double_spin" := by
  have hout : ((process inheritingLibrary 3 3 (create {} .empty .initial, ())).any
      (·.1.toOption = some 1)) = true := by decide +kernel
  have hscopes : ((process inheritingLibrary 3 3 (create {} .empty .initial, ())).any fun out =>
      (out.2.1.scope? 1).any (·.rules.all (·.explicitName = none)) &&
        (out.2.1.scope? 2).any (fun t => t.rules.all (·.explicitName = none) &&
          (t.rules.any fun rule => rule.slot = some "spin" && rule.kind.isNamed) &&
          t.nameOf? "spin" = some "first_spin") &&
        (out.2.1.scope? 3).any (fun u =>
          !u.rules.any fun rule => rule.slot = some "spin" && rule.kind.isNamed) &&
        (nameFor 1 "spin" out.2.1).1.toOption = some "double_spin") = true := by decide +kernel
  -- The script stands before the extension of the first definition, and then of the second one.
  have hfirst : (((calls inheritingLibrary 3).process 0
      (Spot.start inheritingLibrary 3 3 (create {} .empty .initial, ())).state).any
        (·.1.toOption = some 2)) = true := by decide +kernel
  have hsecond : ((BuildM.attempt (Script.extension (calls inheritingLibrary 3) 0 ⟨1, 0⟩)
      (Spot.start inheritingLibrary 3 3 (create {} .empty .initial, ())).state).any fun out =>
        out.1.toOption.isSome && ((calls inheritingLibrary 3).process 1 out.2).any
          (·.1.toOption = some 3)) = true := by decide +kernel
  obtain ⟨⟨e, m⟩, hprocess⟩ := any_toOption_eq hout
  obtain ⟨s₁, hextending⟩ := any_toOption_eq hfirst
  obtain ⟨⟨r, s₂⟩, hattempt, hrest⟩ := (Option.any_eq_true _ _).mp hsecond
  rw [Bool.and_eq_true] at hrest
  obtain ⟨s₃, hextending'⟩ := any_toOption_eq hrest.2
  cases r with
  | error err => cases hrest.1
  | ok answer =>
    rw [hprocess, Option.any_some] at hscopes
    simp only [Bool.and_eq_true, Option.any_eq_true, decide_eq_true_eq] at hscopes
    obtain ⟨⟨⟨⟨s, hs, hspells⟩, t, ht, ⟨hspells', hslot⟩, hname⟩, u, hu, hno⟩, hfor⟩ := hscopes
    have hlast : Spot.ExtendsLast inheritingLibrary ⟨3, .extend 1 fun _ => .done, ⟨1, 0⟩, s₂⟩ 3 :=
      Spot.Extending.extendsLast ⟨1, _, s₃, rfl, hextending'⟩ fun _ => trivial
    have hext : (Spot.start inheritingLibrary 3 3 (create {} .empty .initial, ())).ExtendsLast
        inheritingLibrary 3 := hlast.behind ⟨.extend hattempt, rfl⟩
    rw [Bool.not_eq_true', ← Bool.not_eq_true] at hno
    exact ⟨e, m, s, t, u, hprocess, ⟨0, _, s₁, rfl, hextending⟩, hext, hs, ht, hu,
      Scope.namesSlot_iff.mpr hslot, fun hc => hno (Scope.namesSlot_iff.mp hc),
      Scope.not_spells hspells "spin", Scope.not_spells hspells' "spin", hname,
      eq_ok_of_toOption hfor⟩

end StyleBook
