import StyleBook.Proofs.Sink.Journals

namespace StyleBook

/-!
# What a sink holds

A sink that takes the texts of all calls of a run holds a journal: the blocks of the active scopes,
in the order in which they came in last.

* `Noted` — what a call does to the journal; `Chronicle` — the journal that belongs to a run;
* `Journal.Kept` — the journal has one block for each active scope, and both sinks hold it;
* `Performed.noted` — a call keeps the journal;
* `Session.sinks_agree` — what both sinks hold after any calls.
-/

open Engine

variable {μ : Type} {library : Library μ}

/-- **What a call does to a journal.** -/
inductive Noted (library : Library μ) :
    Request μ → Answer → Engine × μ → Engine → Journal → Journal → Prop
  /-- An activation that succeeds appends the blocks that it inserts. -/
  | inserted {id : ScopeId} {e e' : Engine} {m : μ} {journal blocks : Journal}
    (h : Inserts e [id] blocks e') :
    Noted library (.activate id) (.ok (some id)) (e, m) e' journal (journal ++ blocks)
  /-- So does one that processes a definition first. -/
  | processed {limit key : Nat} {id : ScopeId} {s : Engine × μ} {e e' : Engine} {m : μ}
    {journal blocks : Journal} (h : process library limit key s = some (.ok id, (e, m)))
    (h' : Inserts e [id] blocks e') :
    Noted library (.activateDefinition limit key) (.ok (some id)) s e' journal (journal ++ blocks)
  /-- A deactivation that succeeds takes the blocks of the scopes that it clears. -/
  | released {id : ScopeId} {e e' : Engine} {m : μ} {journal : Journal} {cleared : List ScopeId}
    (h : Releases e [id] cleared e') :
    Noted library (.deactivate id) (.ok none) (e, m) e' journal (journal.without cleared)
  /-- All other calls and those that fail do nothing to it. -/
  | other {request : Request μ} {r : Answer} {s : Engine × μ} {e' : Engine} {journal : Journal}
    (h : ∀ id, Request.activated id (request, r) = false ∧
      Request.deactivated id (request, r) = false) :
    Noted library request r s e' journal journal

/-- **The journal that belongs to a run.** -/
inductive Chronicle (library : Library μ) (start : Engine × μ) :
    List (Request μ × Answer) → Journal → Engine × μ → Prop
  /-- Nothing is called. -/
  | start : Chronicle library start [] [] start
  /-- One more call. -/
  | call {σ : Type} [Sink σ] {steps : List (Request μ × Answer)} {journal journal' : Journal}
    {e : Engine} {m : μ} {r : Answer} {s' : Session μ σ}
    (before : Chronicle library start steps journal (e, m)) (request : Request μ) (sink : σ)
    (h : request.perform library ⟨e, m, sink⟩ = some (r, s'))
    (hj : Noted library request r (e, m) s'.engine journal journal') :
    Chronicle library start (steps ++ [(request, r)]) journal' (s'.engine, s'.memory)

/-- A journal has one block for each active scope, and both sinks hold it. -/
structure Journal.Kept (journal : Journal) (e : Engine) (sinks : TextSink × SheetSink) : Prop where
  nodup : (Dict.keys journal).Nodup
  mem_iff (k : ScopeId) : k ∈ Dict.keys journal ↔ 0 < e.usersOf k
  rules : sinks.1.rules = journal.entries
  sheets : sinks.2.sheets = journal.written

namespace Journal.Kept

variable {journal blocks : Journal} {e e' : Engine} {sinks : TextSink × SheetSink}
  {ids cleared : List ScopeId}

/-- Nothing is active, and nothing is held. -/
theorem empty (naming : NamingConfig) (catalog : Catalog) (ambient : Ambient) :
    Kept [] (create naming catalog ambient) (.empty, .empty) :=
  ⟨List.nodup_nil, fun _ => iff_of_false List.not_mem_nil (lt_irrefl 0), rfl, rfl⟩

/-- The journal belongs to all engines with the same users. -/
theorem of_usersOf (h : Kept journal e sinks) (hu : ∀ k, e'.usersOf k = e.usersOf k) :
    Kept journal e' sinks :=
  { h with mem_iff := fun k => by rw [hu]; exact h.mem_iff k }

/-- The sinks hold nothing of scopes without users. -/
theorem clean (h : Kept journal e sinks) : Clean
    (fun sinks k => sinks.1.Holds k ∨ sinks.2.contains k = true) (e, sinks) := by
  intro k t ht hzero hheld
  have hnot : k ∉ Dict.keys journal := by
    rw [h.mem_iff, usersOf_eq ht, hzero]
    exact lt_irrefl 0
  rcases hheld with ⟨text, hmem⟩ | hmem
  · rw [h.rules] at hmem
    exact hnot (mem_of_mem_entries hmem)
  · rw [SheetSink.contains_iff, h.sheets] at hmem
    exact hnot (keys_written_subset hmem)

/-- Scopes become active, and their blocks come in. -/
theorem inserts (h : Kept journal e sinks) (hs : Sound [] e) (hins : Inserts e ids blocks e') :
    Kept (journal ++ blocks) e' (insertInto blocks sinks) := by
  obtain ⟨rank, hrank⟩ := hs.linked.exists_ranked
  obtain ⟨hnodup, hkeys⟩ := hins.keys hrank
  have hsplit : Dict.keys (journal ++ blocks) = Dict.keys journal ++ Dict.keys blocks :=
    List.map_append
  -- Blocks come in for scopes without users only, and the journal has none of these.
  have hnew : ∀ k ∈ Dict.keys blocks, k ∉ Dict.keys journal := by
    intro k hk
    rw [h.mem_iff, ((hkeys k).2.mp hk).1]
    exact lt_irrefl 0
  refine ⟨?_, fun k => ?_, ?_, ?_⟩
  · rw [hsplit, List.nodup_append]
    exact ⟨h.nodup, hnodup, fun k hk j hj hkj => hnew j hj (hkj ▸ hk)⟩
  · rw [hsplit, List.mem_append, h.mem_iff, (hkeys k).2]
    have := (hkeys k).1
    omega
  · rw [Sink.hom_fst.insertInto, TextSink.rules_insertInto, h.rules, entries_append]
  · rw [Sink.hom_snd.insertInto, SheetSink.sheets_insertInto blocks _ hnodup, h.sheets,
      written_append]
    intro k hk hmem
    rw [h.sheets] at hmem
    exact hnew k hk (keys_written_subset hmem)

/-- Scopes are cleared, and their blocks go. -/
theorem releases (h : Kept journal e sinks) (hrel : Releases e ids cleared e') :
    Kept (journal.without cleared) e' (Sink.removeEach cleared sinks) := by
  refine ⟨?_, fun k => ?_, ?_, ?_⟩
  · rw [keys_without]
    exact h.nodup.filter _
  · obtain ⟨hle, hiff⟩ := hrel.keys k
    rw [keys_without, List.mem_filter, decide_eq_true_eq, h.mem_iff, hiff]
    omega
  · rw [Sink.hom_fst.removeEach, TextSink.rules_removeEach, h.rules, entries_without]
  · rw [Sink.hom_snd.removeEach, SheetSink.sheets_removeEach, h.sheets]
    unfold without written
    rw [List.filter_comm]

/-- Scopes become active, or nothing happens. -/
theorem activate (h : Kept journal e sinks) (hs : Sound [] e) {id : ScopeId}
    {r : Except Error Unit} {sinks' : TextSink × SheetSink}
    (ha : Engine.activate id (e, sinks) = (r, (e', sinks'))) :
    (∃ err, r = .error err ∧ Kept journal e' sinks') ∨
      r = .ok () ∧ ∃ blocks, Inserts e [id] blocks e' ∧ Kept (journal ++ blocks) e' sinks' := by
  rcases r with err | ⟨⟩
  · have hrestored := activate_restores (TextSink.lawful.prod SheetSink.lawful) hs.linked ha
    have hsinks : sinks' = sinks := hrestored.sink h.clean
    exact .inl ⟨err, rfl, hsinks ▸ h.of_usersOf hrestored.users⟩
  · obtain ⟨blocks, hins, hsinks⟩ := activate_inserts ha
    change sinks' = _ at hsinks
    exact .inr ⟨rfl, blocks, hins, hsinks ▸ h.inserts hs hins⟩

end Journal.Kept

/-- **A call keeps the journal.** -/
theorem Performed.noted {request : Request μ} {s s' : Session μ (TextSink × SheetSink)} {r : Answer}
    (h : Performed library request s r s') (hs : Sound [] s.engine) {journal : Journal}
    (hj : journal.Kept s.engine s.sink) :
    ∃ journal', Noted library request r (s.engine, s.memory) s'.engine journal journal' ∧
      journal'.Kept s'.engine s'.sink := by
  -- Only activations that succeed and releases write into the journal. Of the rest it matters that
  -- users stay, by which the journal says who is active.
  cases h with
  | process h =>
    obtain ⟨hs', hx⟩ := (process_builds hs h).1.sound hs
    exact ⟨journal, .other fun _ => ⟨rfl, rfl⟩, hj.of_usersOf fun k => (hx.users_eq hs hs' k).1⟩
  | processInstance h =>
    obtain ⟨hs', hx⟩ := (processInstance_builds hs h).1.sound hs
    exact ⟨journal, .other fun _ => ⟨rfl, rfl⟩, hj.of_usersOf fun k => (hx.users_eq hs hs' k).1⟩
  | activate h =>
    rcases hj.activate hs h with ⟨err, rfl, hkept⟩ | ⟨rfl, blocks, hins, hkept⟩
    · exact ⟨journal, .other fun _ => ⟨rfl, rfl⟩, hkept⟩
    · exact ⟨_, .inserted hins, hkept⟩
  | unprocessed h =>
    obtain ⟨hs', hx⟩ := (process_builds hs h).1.sound hs
    exact ⟨journal, .other fun _ => ⟨rfl, rfl⟩, hj.of_usersOf fun k => (hx.users_eq hs hs' k).1⟩
  | activateDefinition h h' =>
    obtain ⟨hs', hx⟩ := (process_builds hs h).1.sound hs
    have hbuilt := hj.of_usersOf fun k => (hx.users_eq hs hs' k).1
    rcases hbuilt.activate hs' h' with ⟨err, rfl, hkept⟩ | ⟨rfl, blocks, hins, hkept⟩
    · exact ⟨journal, .other fun _ => ⟨rfl, rfl⟩, hkept⟩
    · exact ⟨_, .processed h hins, hkept⟩
  | @deactivate id s r e sinks h =>
    rcases r with err | ⟨⟩
    -- A release fails for scopes that are not there, and changes nothing then.
    · obtain ⟨rank, hrank⟩ := hs.linked.exists_ranked
      cases (deactivate_error hrank h).2
      exact ⟨journal, .other fun _ => ⟨rfl, rfl⟩, hj⟩
    · obtain ⟨cleared, hrel, hsinks⟩ := deactivate_releases h
      change sinks = _ at hsinks
      exact ⟨_, .released hrel, hsinks ▸ hj.releases hrel⟩
  | @nameFor id slot s r e h =>
    have hR := nameFor_renamed id slot s.engine
    rw [h] at hR
    exact ⟨journal, .other fun _ => ⟨rfl, rfl⟩,
      hj.of_usersOf fun k => (users_of_renamed hs.linked hR k).1⟩
  | configure h =>
    subst h
    exact ⟨journal, .other fun _ => ⟨rfl, rfl⟩, hj.of_usersOf fun k => usersOf_of_scopes rfl⟩

/-- Any calls keep the journal of what was called before. -/
theorem Chronicle.performAll {start : Engine × μ} {before steps : List (Request μ × Answer)}
    {requests : List (Request μ)} {s s' : Session μ (TextSink × SheetSink)} {journal : Journal}
    (h : Chronicle library start before journal (s.engine, s.memory)) (hs : Sound [] s.engine)
    (hj : journal.Kept s.engine s.sink)
    (hall : Session.performAll library requests s = some (steps, s')) :
    ∃ journal', Chronicle library start (before ++ steps) journal' (s'.engine, s'.memory) ∧
      journal'.Kept s'.engine s'.sink := by
  induction requests generalizing before steps s journal with
  | nil =>
    cases hall
    rw [List.append_nil]
    exact ⟨journal, h, hj⟩
  | cons request rest ih =>
    obtain ⟨r, s₁, later, h₁, h₂, rfl⟩ := Session.performAll_cons hall
    have hperformed := Request.performed h₁
    obtain ⟨journal₁, hnoted, hkept⟩ := hperformed.noted hs hj
    have hrest := ih (h.call request s.sink h₁ hnoted) (hperformed.sound hs) hkept h₂
    rwa [List.append_assoc] at hrest

/-- **What sinks hold:** after any calls that share one sink, which was empty at first, a sink that
    keeps texts in order holds the texts of the active scopes, each as they were when the scope was
    last inserted, in that order. A sink that keeps texts by scope holds the same texts for every
    scope after the same calls, and the same text as a whole. -/
theorem Session.sinks_agree {naming : NamingConfig} {catalog : Catalog} {ambient : Ambient}
    {memory : μ} {requests : List (Request μ)} {steps : List (Request μ × Answer)}
    {s : Session μ TextSink}
    (h : performAll library requests ⟨create naming catalog ambient, memory, .empty⟩ =
      some (steps, s)) :
    ∃ journal sheet,
      Chronicle library (create naming catalog ambient, memory) steps journal
        (s.engine, s.memory) ∧
      (Dict.keys journal).Nodup ∧ (∀ k, k ∈ Dict.keys journal ↔ 0 < s.engine.usersOf k) ∧
      s.sink.rules = journal.entries ∧
      performAll library requests ⟨create naming catalog ambient, memory, SheetSink.empty⟩ =
        some (steps, ⟨s.engine, s.memory, sheet⟩) ∧
      (∀ k, sheet.rules k = (Dict.get? k journal).getD [] ∧
        sheet.rules k = (s.sink.rules.filter (·.1 = k)).map Prod.snd) ∧
      sheet.css = s.sink.css := by
  -- Both sinks as one take the texts of the same calls.
  let both : Session μ (TextSink × SheetSink) :=
    ⟨create naming catalog ambient, memory, (.empty, .empty)⟩
  have hleft := performAll_mapSink Sink.hom_fst library requests both
  have hright := performAll_mapSink Sink.hom_snd library requests both
  rcases hall : performAll library requests both with _ | ⟨steps', s'⟩ <;> rw [hall] at hleft hright
  · cases h.symm.trans hleft
  · cases h.symm.trans hleft
    obtain ⟨journal, hchronicle, hkept⟩ := Chronicle.performAll .start
      (sound_create naming catalog ambient) (.empty naming catalog ambient) hall
    have hsheet : ∀ k, s'.sink.2.rules k = (Dict.get? k journal).getD [] := by
      intro k
      unfold SheetSink.rules
      rw [hkept.sheets, Journal.get?_written hkept.nodup]
    refine ⟨journal, s'.sink.2, hchronicle, hkept.nodup, hkept.mem_iff, hkept.rules, hright,
      fun k => ⟨hsheet k, ?_⟩, ?_⟩
    · show _ = (s'.sink.1.rules.filter (·.1 = k)).map Prod.snd
      rw [hsheet, hkept.rules, Journal.entries_of_key hkept.nodup]
    · show s'.sink.2.css = s'.sink.1.css
      unfold SheetSink.css TextSink.css
      rw [hkept.sheets, Journal.values_written, hkept.rules]

/-- A scope is taken out and comes in again behind another one; an activation in between fails. -/
theorem sinks_of_reinserted_scope : ∃ steps s sheet,
    Session.performAll sampleLibrary
        [.activateDefinition 2 1, .activateDefinition 2 0, .activateDefinition 2 2, .deactivate 1,
          .deactivate 2, .activate 1] (freshSession TextSink.empty) = some (steps, s) ∧
      s.sink.css = "@keyframes base_spin{}" ∧
      Session.performAll sampleLibrary
        [.activateDefinition 2 1, .activateDefinition 2 0, .activateDefinition 2 2, .deactivate 1,
          .deactivate 2, .activate 1] (freshSession SheetSink.empty) =
            some (steps, ⟨s.engine, s.memory, sheet⟩) ∧
      sheet.css = s.sink.css := by
  have hout : ((Session.performAll sampleLibrary
      [.activateDefinition 2 1, .activateDefinition 2 0, .activateDefinition 2 2, .deactivate 1,
        .deactivate 2, .activate 1] (freshSession TextSink.empty)).any
      fun out => out.2.sink.css = "@keyframes base_spin{}") = true := by
    decide +kernel
  obtain ⟨⟨steps, s⟩, hall, hcss⟩ := (Option.any_eq_true _ _).mp hout
  obtain ⟨_, sheet, -, -, -, -, hsheet, -, hsame⟩ := Session.sinks_agree hall
  exact ⟨steps, s, sheet, hall, of_decide_eq_true hcss, hsheet, hsame⟩

end StyleBook
