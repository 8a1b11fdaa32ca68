import StyleBook.Proofs.Script.Runs
import StyleBook.Proofs.Sink.Inserting

namespace StyleBook

/-!
# The two sinks

What a `TextSink` and a `SheetSink` do with the texts of a scope, and why it does not matter to an
engine which of them takes its texts.

An activation may fail at any depth of the references, after some of them were inserted and others
only got one more user. The engine and both sinks are then as before.

* `TextSink.lawful`, `SheetSink.lawful` — both forget a scope whose texts are removed;
* `Sink.Hom f` — a map between sinks that keeps what sinks do; `Engine.Follows f` — a computation
  that does with one sink what another one does with the other;
* `Session.performAll_mapSink` — calls do the same to the engine, whatever the sink;
* `Engine.Unharmed e e'` — scopes, users and states are as before, except that a scope that was
  processed may be cleared now;
* `Run.activation_failed` — this is all that a failed activation does to an engine, and it does
  nothing to a sink that holds nothing of scopes without users.
-/

/-! ### Texts in order -/

namespace TextSink

/-- Whether the sink has a text of a scope. -/
def Holds (sink : TextSink) (id : ScopeId) : Prop := ∃ text, (id, text) ∈ sink.rules

/-- Texts are appended. -/
theorem rules_insertAll (id : ScopeId) (texts : List String) (sink : TextSink) :
    (Sink.insertAll id texts sink).rules = sink.rules ++ texts.map (Prod.mk id) := by
  induction texts generalizing sink with
  | nil => exact (List.append_nil _).symm
  | cons text rest ih =>
    show (Sink.insertAll id rest (Sink.insert id text sink)).rules = _
    rw [ih]
    show (sink.rules ++ [(id, text)]) ++ _ = _
    rw [List.append_assoc]
    rfl

/-- Texts of the scope are dropped, and all others stay. -/
theorem rules_remove (id : ScopeId) (sink : TextSink) :
    (Sink.remove id sink).rules = sink.rules.filter fun entry => entry.1 ≠ id := rfl

/-- Texts of a scope that had none are forgotten when the scope is removed. -/
theorem lawful : Sink.Lawful Holds where
  remove_insertAll {sink id texts} h := by
    have hrules : (Sink.remove id (Sink.insertAll id texts sink)).rules = sink.rules := by
      rw [rules_remove, rules_insertAll, List.filter_append]
      -- The scope had no texts before, so that all of these stay.
      have hold : sink.rules.filter (fun entry => entry.1 ≠ id) = sink.rules := by
        rw [List.filter_eq_self]
        rintro ⟨k, text⟩ hmem
        rw [decide_eq_true_eq]
        rintro rfl
        exact h ⟨text, hmem⟩
      have hnew : (texts.map (Prod.mk id)).filter (fun entry => entry.1 ≠ id) = [] := by
        rw [List.filter_eq_nil_iff]
        intro entry hmem
        obtain ⟨text, -, rfl⟩ := List.mem_map.mp hmem
        simp
      rw [hold, hnew, List.append_nil]
    exact congrArg TextSink.mk hrules
  holds_insertAll {sink id texts k} := by
    rintro ⟨text, hmem⟩
    rw [rules_insertAll, List.mem_append] at hmem
    rcases hmem with hmem | hmem
    · exact .inr ⟨text, hmem⟩
    · obtain ⟨_, -, heq⟩ := List.mem_map.mp hmem
      exact .inl (Prod.ext_iff.mp heq).1.symm

end TextSink

/-! ### Texts by scope -/

namespace SheetSink

/-- Texts of a scope whose sheet is the last one go to the end of it. -/
theorem sheets_insertAll_last (id : ScopeId) (texts old : List String)
    (sheets : Dict ScopeId (List String)) (h : id ∉ sheets.keys) :
    (Sink.insertAll id texts (⟨sheets ++ [(id, old)]⟩ : SheetSink)).sheets =
      sheets ++ [(id, old ++ texts)] := by
  -- The sheet stands last, and is found and replaced there.
  have hget : ∀ list, Dict.get? id (sheets ++ [(id, list)]) = some list := by
    intro list
    rw [← Dict.insert_of_notMem h, Dict.get?_insert_self]
  have hinsert : ∀ list more, Dict.insert id more (sheets ++ [(id, list)]) = sheets ++
    [(id, more)] := by
    intro list more
    clear hget
    induction sheets with
    | nil => simp [Dict.insert]
    | cons entry rest ih =>
      rw [Dict.keys_cons, List.mem_cons, not_or] at h
      rw [List.cons_append, Dict.insert, if_neg (Ne.symm h.1), ih h.2]
      rfl
  induction texts generalizing old with
  | nil => rw [List.append_nil]; rfl
  | cons text rest ih =>
    show (Sink.insertAll id rest (Sink.insert id text (⟨sheets ++ [(id, old)]⟩ : SheetSink))).sheets
      = _
    have hstep : Sink.insert id text (⟨sheets ++ [(id, old)]⟩ : SheetSink) =
        ⟨sheets ++ [(id, old ++ [text])]⟩ := by
      show SheetSink.mk (Dict.insert id (((sheets ++ [(id, old)]).get? id).getD [] ++ [text]) _) = _
      rw [hget, hinsert]
      rfl
    rw [hstep, ih, List.append_assoc]
    rfl

/-- Texts of a new scope get a sheet of their own at the end; no texts get none. -/
theorem sheets_insertAll (id : ScopeId) (texts : List String) (sink : SheetSink)
    (h : id ∉ sink.sheets.keys) :
    (Sink.insertAll id texts sink).sheets =
      if texts = [] then sink.sheets else sink.sheets ++ [(id, texts)] := by
  cases texts with
  | nil => rw [if_pos rfl]; rfl
  | cons text rest =>
    have hfirst : Sink.insert id text sink = ⟨sink.sheets ++ [(id, [text])]⟩ := by
      show SheetSink.mk (Dict.insert id ((sink.sheets.get? id).getD [] ++ [text]) _) = _
      rw [Dict.get?_eq_none_iff.mpr h, Dict.insert_of_notMem h]
      rfl
    rw [if_neg (List.cons_ne_nil _ _)]
    show (Sink.insertAll id rest (Sink.insert id text sink)).sheets = _
    rw [hfirst]
    exact sheets_insertAll_last id rest [text] sink.sheets h

/-- The sheet of the scope is dropped, and all others stay. -/
theorem sheets_remove (id : ScopeId) (sink : SheetSink) :
    (Sink.remove id sink).sheets = sink.sheets.filter fun entry => entry.1 ≠ id := by
  show sink.sheets.erase id = _
  induction sink.sheets with
  | nil => rfl
  | cons entry rest ih =>
    obtain ⟨k, texts⟩ := entry
    by_cases hk : k = id
    · rw [Dict.erase, if_pos hk, ih, List.filter_cons_of_neg (by simpa using hk)]
    · rw [Dict.erase, if_neg hk, ih, List.filter_cons_of_pos (by simpa using hk)]

/-- A sink contains the scopes that have sheets. -/
theorem contains_iff {id : ScopeId} {sink : SheetSink} :
    sink.contains id = true ↔ id ∈ sink.sheets.keys := Dict.isSome_get?_iff

/-- The sheet of a scope that had none is forgotten when the scope is removed. -/
theorem lawful : Sink.Lawful fun (sink : SheetSink) id => sink.contains id = true where
  remove_insertAll {sink id texts} h := by
    rw [contains_iff] at h
    -- As for texts: what the sink had before is of other scopes.
    have hold : sink.sheets.filter (fun entry => entry.1 ≠ id) = sink.sheets := by
      rw [List.filter_eq_self]
      intro entry hmem
      rw [decide_eq_true_eq]
      rintro rfl
      exact h (List.mem_map_of_mem hmem)
    have hsheets : (Sink.remove id (Sink.insertAll id texts sink)).sheets = sink.sheets := by
      rw [sheets_remove, sheets_insertAll id texts sink h]
      split
      · exact hold
      · rw [List.filter_append, hold, List.filter_cons_of_neg (by simp), List.filter_nil,
          List.append_nil]
    exact congrArg SheetSink.mk hsheets
  holds_insertAll {sink id texts k} h := by
    by_cases hk : k = id
    · exact .inl hk
    · refine .inr ?_
      -- Texts of one scope leave the sheets of others alone, however many there are.
      have hother : ∀ (texts : List String) (sink : SheetSink),
          (Sink.insertAll id texts sink).sheets.get? k = sink.sheets.get? k := by
        intro texts
        induction texts with
        | nil => exact fun _ => rfl
        | cons text rest ih =>
          intro sink
          exact (ih (Sink.insert id text sink)).trans (Dict.get?_insert_of_ne hk _ _)
      unfold contains Dict.contains at h ⊢
      rwa [hother] at h

end SheetSink

/-! ### Maps between sinks -/

/-- A map that keeps what sinks do. -/
structure Sink.Hom {σ τ : Type} [Sink σ] [Sink τ] (f : σ → τ) : Prop where
  insert (id : ScopeId) (text : String) (sink : σ) :
    f (Sink.insert id text sink) = Sink.insert id text (f sink)
  remove (id : ScopeId) (sink : σ) : f (Sink.remove id sink) = Sink.remove id (f sink)

/-- Two sinks that take the same texts are one sink. -/
instance {σ τ : Type} [Sink σ] [Sink τ] : Sink (σ × τ) where
  insert id text sinks := (Sink.insert id text sinks.1, Sink.insert id text sinks.2)
  remove id sinks := (Sink.remove id sinks.1, Sink.remove id sinks.2)

section Maps

variable {σ τ : Type} [Sink σ] [Sink τ] {f : σ → τ}

/-- One of two sinks goes along with both. -/
theorem Sink.hom_fst : Sink.Hom (Prod.fst : σ × τ → σ) := ⟨fun _ _ _ => rfl, fun _ _ => rfl⟩

theorem Sink.hom_snd : Sink.Hom (Prod.snd : σ × τ → τ) := ⟨fun _ _ _ => rfl, fun _ _ => rfl⟩

/-- All texts of a scope go along. -/
theorem Sink.Hom.insertAll (hf : Sink.Hom f) (id : ScopeId) (texts : List String) (sink : σ) :
    f (Sink.insertAll id texts sink) = Sink.insertAll id texts (f sink) := by
  induction texts generalizing sink with
  | nil => rfl
  | cons text rest ih =>
    show f (Sink.insertAll id rest (Sink.insert id text sink)) = _
    rw [ih, hf.insert]
    rfl

namespace Engine

variable {α β : Type}

/-- The second computation does with a sink what the first one does with the other sink. -/
def Follows (f : σ → τ) (c : ActiveM σ α) (d : ActiveM τ α) : Prop :=
  ∀ e sink, d (e, f sink) = Prod.map id (Prod.map id f) (c (e, sink))

namespace Follows

omit [Sink σ] [Sink τ] in
theorem pure (a : α) : Follows f (Pure.pure a) (Pure.pure a) := fun _ _ => rfl

omit [Sink σ] [Sink τ] in
theorem throw (err : Error) :
    Follows f (MonadExcept.throw err : ActiveM σ α) (MonadExcept.throw err) := fun _ _ => rfl

omit [Sink σ] [Sink τ] in
theorem onEngine (c : EngineM α) : Follows f (Engine.onEngine c) (Engine.onEngine c) :=
  fun _ _ => rfl

omit [Sink σ] [Sink τ] in
theorem changeEngine (change : Engine → Engine) :
    Follows f (Engine.changeEngine change) (Engine.changeEngine change) := fun _ _ => rfl

omit [Sink σ] [Sink τ] in
theorem changeSink {g : σ → σ} {h : τ → τ} (hgh : ∀ sink, f (g sink) = h (f sink)) :
    Follows f (Engine.changeSink g) (Engine.changeSink h) := by
  intro e sink
  show (Except.ok (), (e, h (f sink))) = (Except.ok (), (e, f (g sink)))
  rw [hgh]

omit [Sink σ] [Sink τ] in
/-- Computations that go along do so one after the other. -/
theorem bind {c : ActiveM σ α} {d : ActiveM τ α} {g : α → ActiveM σ β} {h : α → ActiveM τ β}
    (hc : Follows f c d) (hg : ∀ a, Follows f (g a) (h a)) : Follows f (c >>= g) (d >>= h) := by
  intro e sink
  rw [stateful_bind, stateful_bind, hc e sink]
  rcases c (e, sink) with ⟨err | a, e', sink'⟩
  · rfl
  · exact hg a e' sink'

omit [Sink σ] [Sink τ] in
/-- What follows a failure goes along, since failures are the same. -/
theorem tryCatch {c : ActiveM σ α} {d : ActiveM τ α} {g : Error → ActiveM σ α}
    {h : Error → ActiveM τ α} (hc : Follows f c d) (hg : ∀ err, Follows f (g err) (h err)) :
    Follows f (MonadExcept.tryCatch c g) (MonadExcept.tryCatch d h) := by
  intro e sink
  have hleft := stateful_tryCatch d h (e, f sink)
  have hright := stateful_tryCatch c g (e, sink)
  refine hleft.trans (Eq.trans ?_ (congrArg _ hright.symm))
  rw [hc e sink]
  rcases c (e, sink) with ⟨err | a, e', sink'⟩
  · exact hg err e' sink'
  · rfl

end Follows

omit [Sink σ] [Sink τ] in
/-- Releases that go along do so in a list. -/
theorem deactivateEach_follows {release : ScopeId → ActiveM σ Unit}
    {release' : ScopeId → ActiveM τ Unit} (h : ∀ r, Follows f (release r) (release' r))
    (list : List ScopeId) :
    Follows f (deactivateEach release list) (deactivateEach release' list) := by
  induction list with
  | nil => exact .pure ()
  | cons r rest ih => exact .bind (h r) fun _ => ih

/-- **Releasing a scope** goes along. -/
theorem deactivateWithin_follows (hf : Sink.Hom f) (limit : Nat) (id : ScopeId) :
    Follows f (deactivateWithin limit id) (deactivateWithin limit id) := by
  induction limit generalizing id with
  | zero => exact .throw _
  | succ limit ih =>
    unfold deactivateWithin
    refine .bind (.onEngine _) fun s => ?_
    rcases s.users with _ | _ | users
    · exact .changeEngine _
    · refine .bind (.changeEngine _) fun _ => .bind (.changeSink (hf.remove id)) fun _ => ?_
      exact deactivateEach_follows ih _
    · exact .changeEngine _

/-- So it does with the limit of the engine. -/
theorem deactivate_follows (hf : Sink.Hom f) (id : ScopeId) :
    Follows f (deactivate id) (deactivate id) :=
  fun e sink => deactivateWithin_follows hf e.walkLimit id e sink

/-- So does rolling back. -/
theorem rollBack_follows (hf : Sink.Hom f) (list : List ScopeId) :
    Follows f (rollBack list) (rollBack list) := by
  induction list with
  | nil => exact .pure ()
  | cons r rest ih =>
    exact .bind (.tryCatch (deactivate_follows hf r) fun _ => .changeEngine _) fun _ => ih

/-- Activations that go along do so in a list, with what is rolled back after a failure. -/
theorem activateEach_follows (hf : Sink.Hom f) {activate : ScopeId → ActiveM σ Unit}
    {activate' : ScopeId → ActiveM τ Unit} (h : ∀ r, Follows f (activate r) (activate' r))
    (list done : List ScopeId) :
    Follows f (activateEach activate done list) (activateEach activate' done list) := by
  induction list generalizing done with
  | nil => exact .pure ()
  | cons r rest ih =>
    refine .bind (.tryCatch (h r) fun err => ?_) fun _ => ih (r :: done)
    exact .bind (rollBack_follows hf done) fun _ => .throw err

/-- **Activating a scope** goes along. -/
theorem activateWithin_follows (hf : Sink.Hom f) (limit : Nat) (id : ScopeId) :
    Follows f (activateWithin limit id) (activateWithin limit id) := by
  induction limit generalizing id with
  | zero => exact .throw _
  | succ limit ih =>
    unfold activateWithin
    refine .bind (.onEngine _) fun s => ?_
    rcases s.users with _ | users
    · refine .bind (.onEngine _) fun texts => .bind (activateEach_follows hf ih _ _) fun _ => ?_
      refine .bind (.changeSink (hf.insertAll id texts)) fun _ => .bind (.onEngine _) fun _ => ?_
      exact .changeEngine _
    · exact .changeEngine _

/-- **Activating does the same to the engine, whatever the sink.** -/
theorem activate_follows (hf : Sink.Hom f) (id : ScopeId) :
    Follows f (activate id) (activate id) :=
  fun e sink => activateWithin_follows hf e.walkLimit id e sink

end Engine

variable {μ : Type}

/-- The session with another sink in place of its own. -/
def Session.mapSink (f : σ → τ) (s : Session μ σ) : Session μ τ := ⟨s.engine, s.memory, f s.sink⟩

omit [Sink σ] [Sink τ] in
/-- A definition that is built does not see the sink. -/
theorem Session.building_mapSink {α : Type} (c : BuildM μ α) (s : Session μ σ) :
    building c (s.mapSink f) = (building c s).map (Prod.map id (mapSink f)) := by
  unfold building mapSink
  rcases c (s.engine, s.memory) with _ | ⟨r, e, m⟩ <;> rfl

omit [Sink σ] [Sink τ] in
/-- A computation that goes along does so in a session. -/
theorem Session.activating_mapSink {α : Type} {c : ActiveM σ α} {d : ActiveM τ α}
    (h : Engine.Follows f c d) (s : Session μ σ) :
    activating d (s.mapSink f) = (activating c s).map (Prod.map id (mapSink f)) := by
  unfold activating mapSink
  simp only [h s.engine s.sink]
  rcases c (s.engine, s.sink) with ⟨r, e, sink⟩
  rfl

omit [Sink σ] [Sink τ] in
/-- Calls that go along do so one after the other. -/
theorem Session.bind_mapSink {α β : Type} {c : SessionM μ σ α} {d : SessionM μ τ α}
    {g : α → SessionM μ σ β} {h : α → SessionM μ τ β}
    (hc : ∀ s, d (mapSink f s) = (c s).map (Prod.map id (mapSink f)))
    (hg : ∀ a s, h a (mapSink f s) = (g a s).map (Prod.map id (mapSink f))) (s : Session μ σ) :
    (d >>= h) (s.mapSink f) = ((c >>= g) s).map (Prod.map id (mapSink f)) := by
  rw [partial_bind, partial_bind, hc]
  rcases c s with _ | ⟨err | a, s'⟩
  · rfl
  · rfl
  · exact hg a s'

/-- **A call does the same to the engine, whatever the sink.** -/
theorem Request.perform_mapSink (hf : Sink.Hom f) (library : Library μ) (request : Request μ)
    (s : Session μ σ) : request.perform library (s.mapSink f) =
      (request.perform library s).map (Prod.map id (Session.mapSink f)) := by
  -- Every call is put together from computations that go along.
  cases request with
  | process limit key =>
    exact Session.bind_mapSink (Session.building_mapSink _) (fun _ _ => rfl) s
  | processInstance limit d =>
    exact Session.bind_mapSink (Session.building_mapSink _) (fun _ _ => rfl) s
  | activate id =>
    exact Session.bind_mapSink (Session.activating_mapSink (Engine.activate_follows hf id))
      (fun _ _ => rfl) s
  | activateDefinition limit key =>
    refine Session.bind_mapSink (fun s => ?_) (fun _ _ => rfl) s
    refine Session.bind_mapSink (Session.building_mapSink _) (fun id s => ?_) s
    exact Session.bind_mapSink (Session.activating_mapSink (Engine.activate_follows hf id))
      (fun _ _ => rfl) s
  | deactivate id =>
    exact Session.bind_mapSink (Session.activating_mapSink (Engine.deactivate_follows hf id))
      (fun _ _ => rfl) s
  | nameFor id slot => exact Session.bind_mapSink (Session.building_mapSink _) (fun _ _ => rfl) s
  | configure naming supports ambient => rfl

/-- **So do calls one after the other.** -/
theorem Session.performAll_mapSink (hf : Sink.Hom f) (library : Library μ)
    (requests : List (Request μ)) (s : Session μ σ) : performAll library requests (s.mapSink f) =
      (performAll library requests s).map (Prod.map id (mapSink f)) := by
  induction requests generalizing s with
  | nil => rfl
  | cons request rest ih =>
    rw [performAll, performAll, request.perform_mapSink hf]
    rcases request.perform library s with _ | ⟨r, s'⟩
    · rfl
    · simp only [Option.map_some, Prod.map_apply, id_eq, ih]
      rcases performAll library rest s' with _ | ⟨steps, s''⟩ <;> rfl

end Maps

/-! ### Failed activations -/

namespace Engine

/-- The same scopes with the same users; scopes that were processed may be cleared. -/
structure Unharmed (e e' : Engine) : Prop where
  keys : e'.scopes.keys = e.scopes.keys
  scope {k s} : e.scope? k = some s → ∃ s', e'.scope? k = some s' ∧ s'.users = s.users ∧
    s' = { s with state := s'.state } ∧
    (s'.state = s.state ∨ s.state = .processed ∧ s'.state = .cleared)

variable {σ : Type} [Sink σ] {holds : σ → ScopeId → Prop} {e : Engine} {sink : σ} {id : ScopeId}

/-- A failed activation harms no engine between definitions. -/
theorem activate_unharmed (hs : Sound [] e) {err : Error} {s' : Engine × σ}
    (h : activate id (e, sink) = (.error err, s')) : Unharmed e s'.1 := by
  have hR := activate_reused hs.linked id sink
  rw [h] at hR
  have husers := (activate_restores Sink.lawful_true hs.linked h).users
  refine ⟨hR.keys, fun {k t} ht => ?_⟩
  obtain ⟨t', ht', hRt⟩ := hR.scope ht
  have hu : t'.users = t.users := by rw [← usersOf_eq ht, ← usersOf_eq ht', husers]
  refine ⟨t', ht', hu, hRt.eq_users.trans (by rw [hu]), ?_⟩
  rcases hRt.state_of_users (hs.linked.inserted_iff ht) hu with heq | ⟨hzero, hcleared⟩
  · exact .inl heq
  · -- A scope without users is not inserted, so it was processed or cleared.
    have hnot : t.state ≠ .inserted := fun hi =>
      absurd ((hs.linked.inserted_iff ht).mp hi) (by omega)
    rcases hstate : t.state with _ | _ | _ | _
    · exact absurd hstate (hs.settled ht)
    · exact .inr ⟨rfl, hcleared⟩
    · exact absurd hstate hnot
    · exact .inl hcleared

/-- It leaves a sink alone that holds nothing of scopes without users. -/
theorem activate_sink_eq (hlaw : Sink.Lawful holds) (hs : Sound [] e)
    (hclean : ∀ {k s}, e.scope? k = some s → s.users = 0 → ¬ holds sink k) {err : Error}
    {s' : Engine × σ} (h : activate id (e, sink) = (.error err, s')) : s'.2 = sink :=
  (activate_restores hlaw hs.linked h).sink fun _ _ hk hzero => hclean hk hzero

end Engine

open Engine

/-- **A failed activation leaves nothing behind:** for every engine that a run leads to, all users
    and states are as before, except that scopes that were processed may be cleared; so is every
    sink that held nothing of scopes without users, whether it keeps texts in order or by scope. -/
theorem Run.activation_failed {μ : Type} {library : Library μ} {naming : NamingConfig}
    {catalog : Catalog} {ambient : Ambient} {memory m : μ} {e : Engine}
    {steps : List (Request μ × Answer)}
    (h : Run library (create naming catalog ambient, memory) steps (e, m)) (id : ScopeId) :
    (∀ sink : TextSink, (∀ k s, e.scope? k = some s → s.users = 0 → ¬ sink.Holds k) →
      ∀ err e' sink', activate id (e, sink) = (.error err, (e', sink')) →
        Unharmed e e' ∧ sink' = sink) ∧
    (∀ sink : SheetSink, (∀ k s, e.scope? k = some s → s.users = 0 → sink.contains k = false) →
      ∀ err e' sink', activate id (e, sink) = (.error err, (e', sink')) →
        Unharmed e e' ∧ sink' = sink) := by
  have hs := h.sound (sound_create naming catalog ambient)
  refine ⟨fun sink hclean err e' sink' ha => ?_, fun sink hclean err e' sink' ha => ?_⟩
  · exact ⟨activate_unharmed hs ha,
      activate_sink_eq TextSink.lawful hs (fun hk hzero => hclean _ _ hk hzero) ha⟩
  · refine ⟨activate_unharmed hs ha, activate_sink_eq SheetSink.lawful hs (fun hk hzero => ?_) ha⟩
    rw [hclean _ _ hk hzero]
    exact Bool.false_ne_true

/-- The second of two references fails after the first one was inserted. -/
theorem activation_of_torn_scope :
    ∃ steps e err e' sink', Run sampleLibrary (create {} .empty .initial, ()) steps (e, ()) ∧
      activate 1 (e, TextSink.empty) = (.error err, (e', sink')) ∧
      (e.scope? 2).any (·.state = .processed) ∧ (e'.scope? 2).any (·.state = .cleared) ∧
      Unharmed e e' ∧ sink' = .empty := by
  have hout : ((Session.performAll sampleLibrary [.process 2 2] (freshSession TextSink.empty)).any
      fun out =>
        (out.2.engine.scope? 2).any (·.state = .processed) &&
          match activate 1 (out.2.engine, TextSink.empty) with
          | (.error _, (e', _)) => (e'.scope? 2).any (·.state = .cleared)
          | _ => false) = true := by
    decide +kernel
  -- The sample is run; the failing activation is the one that the general theorem is about.
  obtain ⟨⟨steps, s'⟩, hall, hp⟩ := (Option.any_eq_true _ _).mp hout
  have hrun := Run.performAll .start hall
  rw [Bool.and_eq_true] at hp
  rcases ha : activate 1 (s'.engine, TextSink.empty) with ⟨err | ⟨⟩, e', sink'⟩ <;> rw [ha] at hp
  · obtain ⟨hunharmed, hsink⟩ := (hrun.activation_failed 1).1 TextSink.empty
      (fun _ _ _ _ ⟨_, hmem⟩ => by cases hmem) err e' sink' ha
    exact ⟨steps, s'.engine, err, e', sink', hrun, ha, hp.1, hp.2, hunharmed, hsink⟩
  · cases hp.2

end StyleBook
