import StyleBook.Proofs.Script.Confined

namespace StyleBook

/-!
# What a definition that fails uses up

A definition reserves a name for its scope before it declares. When it fails, its scope goes, but
the name is not given back: a later definition of that name gets another one.

* `Engine.Spent` — an engine is another one but for a reserved name and what
  was counted and reported;
* `Attempt.failed_spends` — so it is behind a definition that fails, if no other one got a scope on
  the way;
* `Run.failure_spends` — in every run;
* `name_spent` — the scope name of a definition that failed is missed later.
-/

variable {μ : Type}

namespace Engine

variable {e e' : Engine} {id : ScopeId} {key : Nat} {roots : List ScopeId}

/-! ### Discarding -/

/-- **The scopes are those from before,** when a definition declared and its scope is discarded. -/
theorem abandoned_scopes {d : Definition μ} (hs : Sound roots e)
    (hs₁ : Sound (e.nextScope :: roots) e') (hkeys : (opened d e).scopes.keys <+: e'.scopes.keys)
    (helsewhere : ∀ {k}, ¬ e'.Inside e.nextScope k → e'.scope? k = (opened d e).scope? k) :
    (e'.abandon e.nextScope d.key).scopes = e.scopes := by
  have ha := abandon_abandoned hs₁.linked e.nextScope d.key
  have hopened : (opened d e).scopes.keys = e.scopes.keys ++ [e.nextScope] := by
    refine (Dict.keys_insert _ _ _).trans (if_neg fun hmem => ?_)
    obtain ⟨t, ht⟩ := mem_keys_iff.mp hmem
    exact absurd (hs.linked.lt_nextScope ht) (lt_irrefl _)
  -- Scopes that were there are older, so they are not inside of the new one.
  have hold : ∀ {k t}, e.scope? k = some t → (e'.abandon e.nextScope d.key).scope? k = some t := by
    intro k t ht
    have hlt := hs.linked.lt_nextScope ht
    have hout : ¬ e'.Inside e.nextScope k := fun hin =>
      absurd (hs₁.linked.le_of_inside hin) (Nat.not_le.mpr hlt)
    refine ha.kept hout ?_
    rw [helsewhere hout, scope?_opened, if_neg hlt.ne, ht]
  have hback : ∀ {k t}, (e'.abandon e.nextScope d.key).scope? k = some t → e.scope? k = some t := by
    intro k t ht
    obtain ⟨hout, ht'⟩ := ha.back ht
    rw [helsewhere hout, scope?_opened] at ht'
    split at ht'
    · next heq => exact absurd (heq ▸ .root (ha.back ht).2) hout
    · exact ht'
  obtain ⟨rest, hrest⟩ := hkeys
  have hkeys : (e'.abandon e.nextScope d.key).scopes.keys = e.scopes.keys := by
    have hsub := ha.keys
    rw [← hrest, hopened, List.append_assoc] at hsub
    obtain ⟨old, new, heq, hsubold, hsubnew⟩ := List.sublist_append_iff.mp hsub
    have hdisjoint : List.Disjoint e.scopes.keys ([e.nextScope] ++ rest) := by
      have hnodup := hs₁.linked.keys_nodup
      rw [← hrest, hopened, List.append_assoc] at hnodup
      exact List.disjoint_of_nodup_append hnodup
    have hnone : new = [] := List.eq_nil_iff_forall_not_mem.mpr fun k hk => by
      obtain ⟨t, ht⟩ := mem_keys_iff.mp (heq ▸ List.mem_append_right _ hk)
      exact hdisjoint (mem_keys_of_scope? (hback ht)) (hsubnew.subset hk)
    rw [hnone, List.append_nil] at heq
    rw [heq]
    refine hsubold.eq_of_length_le (hs.linked.keys_nodup.subperm fun k hk => ?_).length_le
    obtain ⟨t, ht⟩ := mem_keys_iff.mp hk
    exact heq ▸ mem_keys_of_scope? (hold ht)
  refine Dict.ext_keys hkeys (hkeys ▸ hs.linked.keys_nodup) fun k hk => ?_
  obtain ⟨t, ht⟩ := mem_keys_iff.mp hk
  exact ht.trans (hback ht).symm

/-! ### What is used up -/

/-- **What a definition that failed used up:** the engine is as it was, but a name is reserved for
    the scope, and the ids of the next scope and the next place are others. -/
def Spent (d : Definition μ) (e e' : Engine) : Prop :=
  ∃ events, e' = { e with
    naming := (e.naming.reserve d.scopeName d.multiplex).2
    nextScope := e'.nextScope, nextCell := e'.nextCell
    ambient := { e.ambient with events := events ++ e.ambient.events } }

/-- The entry of the definition is taken out again. -/
theorem opened_erase {d : Definition μ} (hl : Linked e)
    (hnew : d.multiplex = false → e.scopeOf? d.key = none) :
    (if (opened d e).singletons.get? d.key = some e.nextScope then
      (opened d e).singletons.erase d.key else (opened d e).singletons) = e.singletons := by
  show (if (if d.multiplex then e.singletons else e.singletons.insert d.key e.nextScope).get?
    d.key =
    some e.nextScope then _ else _) = _
  -- A definition that is multiplex has no entry to take out, since no type has a scope of that
  -- number.
  cases hm : d.multiplex with
  | true =>
    have hne : e.singletons.get? d.key ≠ some e.nextScope := fun hid => by
      obtain ⟨t, ht, -⟩ := hl.singleton_live hid
      exact absurd (hl.lt_nextScope ht) (lt_irrefl _)
    rw [if_pos rfl, if_neg hne]
    exact if_pos hm
  | false =>
    rw [if_neg Bool.false_ne_true, if_pos (Dict.get?_insert_self _ _ _)]
    have hentry : (opened d e).singletons = e.singletons.insert d.key e.nextScope :=
      if_neg (by rw [hm]; exact Bool.false_ne_true)
    rw [hentry]
    exact Dict.erase_insert_of_notMem (Dict.get?_eq_none_iff.mp (hnew hm))

end Engine

open Engine

/-- **A definition that fails while it declares uses up a name, and nothing else is different,** if
    no other definition gets a scope on the way. -/
theorem Attempt.failed_spends {library : Library μ} {a : Attempt μ} {roots : List ScopeId}
    {s₁ s' : Engine × μ} {err : Error} {r : Except Error ScopeId} (hs : Sound roots a.state.1)
    (hnew : a.definition.multiplex = false → a.state.1.scopeOf? a.definition.key = none)
    (hnone : a.start.TriesNothing library) (hfail : a.start.run library = some (.error err, s₁))
    (h : a.run library = some (r, s')) :
    (∃ err', r = .error err') ∧ Spent a.definition a.state.1 s'.1 := by
  obtain ⟨declared, s₂, hrun, hend⟩ := construct_cases h
  cases hfail.symm.trans hrun
  have hp := Attempt.placed hs
  have hconfined : Confined a.state.1.nextScope (opened a.definition a.state.1) s₁.1 :=
    Spot.run_confined library a.limit _ _ _ hp hnone _ s₁ hfail
  obtain ⟨hs₁, -⟩ := Builds.sound (Script.run_builds_anything (b := ⟨a.state.1.nextScope, 0⟩)
    (calls_build_anything library a.limit) a.definition.script hp.sound hp.inside _ s₁ hrun)
    hp.sound
  rcases hend with ⟨err₁, err', -, rfl, heq⟩ | ⟨_, _, hok, -⟩ | ⟨hok, -⟩
  · refine ⟨⟨err', rfl⟩, ?_⟩
    have hinside : ∀ {k}, ¬ s₁.1.endConstruction.Inside a.state.1.nextScope k →
        ¬ s₁.1.Inside a.state.1.nextScope k :=
      fun hout hin => hout (hin.of_owner fun hs => ⟨_, hs, rfl⟩)
    -- All that is new is inside of the definition's scope, and goes with it.
    have hscopes := abandoned_scopes hs hs₁.endConstruction hconfined.keys fun hout =>
      hconfined.elsewhere (hinside hout)
    obtain ⟨events, hdeclares⟩ := hconfined.declares
    have hsingletons : (s₁.1.endConstruction.abandon a.state.1.nextScope
        a.definition.key).singletons = a.state.1.singletons := by
      have hsame : s₁.1.endConstruction.singletons = (opened a.definition a.state.1).singletons :=
        show s₁.1.singletons = _ by rw [hdeclares]
      rw [abandon_singletons, hsame]
      exact opened_erase hs.linked hnew
    refine ⟨.definitionFailed a.definition.title err₁ :: events, ?_⟩
    rw [heq, abandon_eq, hscopes, hsingletons, hdeclares]
    rfl
  · cases hok
  · cases hok

variable {library : Library μ} {naming : NamingConfig} {catalog : Catalog} {ambient : Ambient}

/-- **A definition that fails while it declares uses up a name,** in every state that a run leads
    to, and nothing else is different afterwards, if no other definition gets a scope on the way. -/
theorem Run.failure_spends {memory : μ} {steps : List (Request μ × Answer)} {s s₁ s' : Engine × μ}
    {limit : Nat} {d : Definition μ} {err err' : Error}
    (hrun : Run library (create naming catalog ambient, memory) steps s)
    (hnone : (Attempt.start ⟨limit, d, s⟩).TriesNothing library)
    (hfail : (Attempt.start ⟨limit, d, s⟩).run library = some (.error err, s₁))
    (h : processInstance library limit d s = some (.error err', s')) : Spent d s.1 s'.1 := by
  have hcreated := sound_create naming catalog ambient
  have hs := hrun.sound hcreated
  have hidle : s.1.constructing = [] := hrun.callwise constructing_callwise hcreated
  obtain ⟨hnew, hconstruct⟩ := processInstanceWith_failed hs (hidle ▸ List.not_mem_nil) h
  exact (Attempt.failed_spends (a := ⟨limit, d, s⟩) hs hnew hnone hfail hconstruct).2

/-- Two definitions of one scope name, of which the first one fails. -/
def namesakes : Library Unit
  | 0 => ⟨0, "Card", "card", false, .add "body" (.cls .empty) fun _ => .fail .unknownScope⟩
  | key => ⟨key, "Card", "card", false, .add "body" (.cls .empty) fun _ => .done⟩

/-- The first one uses up its name. -/
theorem namesake_spends : ∃ (s' : Engine × Unit) (err : Error),
    processInstance namesakes 1 (namesakes 0) (create {} .empty .initial, ()) =
        some (.error err, s') ∧
      Spent (namesakes 0) (create {} .empty .initial) s'.1 := by
  let a : Attempt Unit := ⟨1, namesakes 0, (create {} .empty .initial, ())⟩
  have hscript : ((a.start.run namesakes).any fun out => !out.1.isOk) = true := by decide +kernel
  have hprocess : ((processInstance namesakes 1 (namesakes 0) (create {} .empty .initial, ())).any
      fun out => !out.1.isOk) = true := by decide +kernel
  obtain ⟨⟨r, s₁⟩, hfail, hr⟩ := (Option.any_eq_true _ _).mp hscript
  obtain ⟨⟨r', s'⟩, h, hr'⟩ := (Option.any_eq_true _ _).mp hprocess
  rcases r with err | _
  · rcases r' with err' | _
    · exact ⟨s', err', h, Run.failure_spends .start
        (Spot.triesNothing_of_script fun _ => trivial) hfail h⟩
    · cases hr'
  · cases hr

/-- **The name is missed later:** behind the definition that failed, the other one has another name,
    and so have its rules. -/
theorem name_spent : ∃ (s₁ s s' : Engine × Unit) (err : Error) (t t' : Scope),
    process namesakes 1 0 (create {} .empty .initial, ()) = some (.error err, s₁) ∧
      process namesakes 1 1 s₁ = some (.ok 2, s) ∧ s.1.scope? 2 = some t ∧ t.name = "card_1" ∧
      t.names = [("body", "card_1_body")] ∧
      process namesakes 1 1 (create {} .empty .initial, ()) = some (.ok 1, s') ∧
      s'.1.scope? 1 = some t' ∧ t'.name = "card" ∧ t'.names = [("body", "card_body")] := by
  -- Both orders are run; they differ in whether another definition failed before.
  have hbehind : ((process namesakes 1 0 (create {} .empty .initial, ())).any fun out =>
      !out.1.isOk && (process namesakes 1 1 out.2).any fun out => out.1.toOption = some 2 &&
        (out.2.1.scope? 2).any fun t => t.name = "card_1" && t.names = [("body", "card_1_body")]) =
          true := by decide +kernel
  have halone : ((process namesakes 1 1 (create {} .empty .initial, ())).any fun out =>
      out.1.toOption = some 1 &&
        (out.2.1.scope? 1).any fun t => t.name = "card" && t.names = [("body", "card_body")]) =
          true := by decide +kernel
  obtain ⟨⟨r₁, s₁⟩, hfirst, hp⟩ := (Option.any_eq_true _ _).mp hbehind
  simp only [Bool.and_eq_true, Option.any_eq_true, decide_eq_true_eq, Prod.exists] at hp
  obtain ⟨hr₁, r, e, m, hsecond, hr, t, ht, hname, hnames⟩ := hp
  obtain ⟨⟨r', s'⟩, hother, hp'⟩ := (Option.any_eq_true _ _).mp halone
  simp only [Bool.and_eq_true, Option.any_eq_true, decide_eq_true_eq] at hp'
  obtain ⟨hr', t', ht', hname', hnames'⟩ := hp'
  rcases r₁ with err | _
  · rcases r with _ | id
    · cases hr
    rcases r' with _ | id'
    · cases hr'
    obtain rfl : id = 2 := by simpa [Except.toOption] using hr
    obtain rfl : id' = 1 := by simpa [Except.toOption] using hr'
    exact ⟨s₁, (e, m), s', err, t, t', hfirst, hsecond, ht, hname, hnames, hother, ht',
      hname', hnames'⟩
  · cases hr₁

end StyleBook
