import StyleBook.Proofs.Engine.Activation
import StyleBook.Proofs.Script.Scripts

namespace StyleBook

/-!
# Runs

What a program does with an engine: it has definitions processed, activates and deactivates scopes,
asks for names and changes settings, in any order, whether its calls succeed or not.

* `Request`, `Request.perform` — one call;
* `Engine.Served` — what a call does to an engine, and `Performed.served` — that it does nothing
  else;
* `Run` — a sequence of calls, each of them with a sink of its own;
* `Run.sound` — between calls the links of the engine are sound and all scopes are processed;
* `Session.performAll` — calls one after the other that share one sink.
-/

/-- A call of a session. -/
inductive Request (μ : Type)
  /-- Process a definition of the library. -/
  | process (limit key : Nat)
  /-- Process an instance of a definition. -/
  | processInstance (limit : Nat) (d : Definition μ)
  /-- Add a user to a scope. -/
  | activate (id : ScopeId)
  /-- Process a definition of the library and add a user to its scope. -/
  | activateDefinition (limit key : Nat)
  /-- Release a user of a scope. -/
  | deactivate (id : ScopeId)
  /-- Ask for the name of a slot. -/
  | nameFor (id : ScopeId) (slot : String)
  /-- Change how names are given, which features are supported, and what conversions share. -/
  | configure (naming : Naming → Naming) (supports : String → Bool) (ambient : Ambient → Ambient)

/-- What a call answers: a scope, or nothing but that it is done, or an error. -/
abbrev Answer := Except Error (Option ScopeId)

variable {μ σ : Type} [Sink σ]

/-- **Do what is asked.** -/
def Request.perform (library : Library μ) : Request μ → SessionM μ σ (Option ScopeId)
  | .process limit key => some <$> Session.building (Engine.process library limit key)
  | .processInstance limit d => some <$> Session.building (Engine.processInstance library limit d)
  | .activate id => do
    Session.activating (Engine.activate id)
    return some id
  | .activateDefinition limit key => some <$> Session.activateDefinition library limit key
  | .deactivate id => do
    Session.activating (Engine.deactivate id)
    return none
  | .nameFor id slot => do
    let _ ← Session.building (BuildM.onEngine (Engine.nameFor id slot))
    return none
  | .configure naming supports ambient => do
    modify fun s =>
      { s with engine :=
        { s.engine with naming := naming s.engine.naming, supports
                        ambient := ambient s.engine.ambient } }
    return none

/-- What happens in a call, case by case. -/
inductive Performed (library : Library μ) :
    Request μ → Session μ σ → Answer → Session μ σ → Prop
  | process {limit key s r e m}
    (h : Engine.process library limit key (s.engine, s.memory) = some (r, (e, m))) :
    Performed library (.process limit key) s (r.map some) { s with engine := e, memory := m }
  | processInstance {limit d s r e m}
    (h : Engine.processInstance library limit d (s.engine, s.memory) = some (r, (e, m))) :
    Performed library (.processInstance limit d) s (r.map some)
      { s with engine := e, memory := m }
  | activate {id s r e sink} (h : Engine.activate id (s.engine, s.sink) = (r, (e, sink))) :
    Performed library (.activate id) s (r.map fun _ => some id) { s with engine := e, sink }
  | unprocessed {limit key s err e m}
    (h : Engine.process library limit key (s.engine, s.memory) = some (.error err, (e, m))) :
    Performed library (.activateDefinition limit key) s (.error err)
      { s with engine := e, memory := m }
  | activateDefinition {limit key s id e m r e' sink}
    (h : Engine.process library limit key (s.engine, s.memory) = some (.ok id, (e, m)))
    (h' : Engine.activate id (e, s.sink) = (r, (e', sink))) :
    Performed library (.activateDefinition limit key) s (r.map fun _ => some id) ⟨e', m, sink⟩
  | deactivate {id s r e sink} (h : Engine.deactivate id (s.engine, s.sink) = (r, (e, sink))) :
    Performed library (.deactivate id) s (r.map fun _ => none) { s with engine := e, sink }
  | nameFor {id slot s r e} (h : Engine.nameFor id slot s.engine = (r, e)) :
    Performed library (.nameFor id slot) s (r.map fun _ => none) { s with engine := e }
  | configure {naming supports ambient s e}
    (h : e = { s.engine with naming := naming s.engine.naming, supports
                             ambient := ambient s.engine.ambient }) :
    Performed library (.configure naming supports ambient) s (.ok none) { s with engine := e }

namespace Session

omit [Sink σ] in
/-- A result that is turned into an answer. -/
theorem bind_pure_eq_some {α β : Type} {c : SessionM μ σ α} {f : α → β} {s s' : Session μ σ}
    {r : Except Error β} (h : (c >>= fun a => pure (f a)) s = some (r, s')) :
    ∃ r', c s = some (r', s') ∧ r = r'.map f := by
  rcases partial_bind_eq_some h with ⟨a, s₁, h₁, h₂⟩ | ⟨err, h₁, rfl⟩
  · cases h₂
    exact ⟨_, h₁, rfl⟩
  · exact ⟨_, h₁, rfl⟩

omit [Sink σ] in
/-- The same for an answer that is mapped. -/
theorem map_eq_some {α β : Type} {c : SessionM μ σ α} {f : α → β} {s s' : Session μ σ}
    {r : Except Error β} (h : (f <$> c) s = some (r, s')) :
    ∃ r', c s = some (r', s') ∧ r = r'.map f := by
  rw [map_eq_pure_bind] at h
  exact bind_pure_eq_some h

omit [Sink σ] in
/-- A definition that is built leaves the sink alone. -/
theorem building_eq_some {α : Type} {c : BuildM μ α} {s s' : Session μ σ} {r : Except Error α}
    (h : building c s = some (r, s')) :
    ∃ e m, c (s.engine, s.memory) = some (r, (e, m)) ∧
      s' = { s with engine := e, memory := m } := by
  unfold building at h
  rcases hc : c (s.engine, s.memory) with _ | ⟨r', e, m⟩ <;> rw [hc] at h
  · cases h
  · cases h
    exact ⟨e, m, rfl, rfl⟩

omit [Sink σ] in
/-- A computation with the sink leaves the memory alone. -/
theorem activating_eq_some {α : Type} {c : ActiveM σ α} {s s' : Session μ σ} {r : Except Error α}
    (h : activating c s = some (r, s')) :
    ∃ e sink, c (s.engine, s.sink) = (r, (e, sink)) ∧ s' = { s with engine := e, sink } := by
  unfold activating at h
  rcases hc : c (s.engine, s.sink) with ⟨r', e, sink⟩
  rw [hc] at h
  cases h
  exact ⟨e, sink, rfl, rfl⟩

end Session

/-- **What a call does,** by its kind. -/
theorem Request.performed {library : Library μ} {request : Request μ} {s s' : Session μ σ}
    {r : Answer} (h : request.perform library s = some (r, s')) :
    Performed library request s r s' := by
  cases request with
  | process limit key =>
    obtain ⟨r', h', rfl⟩ := Session.map_eq_some h
    obtain ⟨e, m, hc, rfl⟩ := Session.building_eq_some h'
    exact .process hc
  | processInstance limit d =>
    obtain ⟨r', h', rfl⟩ := Session.map_eq_some h
    obtain ⟨e, m, hc, rfl⟩ := Session.building_eq_some h'
    exact .processInstance hc
  | activate id =>
    obtain ⟨r', h', rfl⟩ := Session.bind_pure_eq_some h
    obtain ⟨e, sink, hc, rfl⟩ := Session.activating_eq_some h'
    exact .activate hc
  | activateDefinition limit key =>
    obtain ⟨r', h', rfl⟩ := Session.map_eq_some h
    rcases partial_bind_eq_some h' with ⟨id, s₁, h₁, h₂⟩ | ⟨err, h₁, rfl⟩
    · obtain ⟨e, m, hc, rfl⟩ := Session.building_eq_some h₁
      obtain ⟨r'', h₃, rfl⟩ := Session.bind_pure_eq_some h₂
      obtain ⟨e', sink, hc', rfl⟩ := Session.activating_eq_some h₃
      -- The number that is answered is that of the definition's scope, if the activation succeeds.
      have hr : Except.map some (Except.map (fun _ => id) r'') = r''.map fun _ => some id := by
        cases r'' <;> rfl
      rw [hr]
      exact .activateDefinition hc hc'
    · obtain ⟨e, m, hc, rfl⟩ := Session.building_eq_some h₁
      exact .unprocessed hc
  | deactivate id =>
    obtain ⟨r', h', rfl⟩ := Session.bind_pure_eq_some h
    obtain ⟨e, sink, hc, rfl⟩ := Session.activating_eq_some h'
    exact .deactivate hc
  | nameFor id slot =>
    obtain ⟨r', h', rfl⟩ := Session.bind_pure_eq_some h
    obtain ⟨e, m, hc, rfl⟩ := Session.building_eq_some h'
    rw [BuildM.onEngine_apply] at hc
    cases hc
    exact .nameFor rfl
  | configure naming supports ambient =>
    cases h
    exact .configure rfl

/-! ### Sound engines -/

namespace Engine

/-- An engine starts without scopes. -/
theorem sound_create (naming : NamingConfig) (catalog : Catalog) (ambient : Ambient) :
    Sound [] (create naming catalog ambient) := by
  have hnone : ∀ {k s}, (create naming catalog ambient).scope? k ≠ some s := fun h => by cases h
  refine ⟨?_, fun hs => absurd hs hnone, List.nodup_nil, fun h => by simp at h⟩
  exact
    { keys_nodup := List.nodup_nil
      lt_nextScope := fun hs => absurd hs hnone
      references_nodup := fun hs => absurd hs hnone
      reference_ready := fun hs => absurd hs hnone
      ranked := ⟨fun _ => 0, fun hs => absurd hs hnone⟩
      children_nodup := fun hs => absurd hs hnone
      child_owner := fun hs => absurd hs hnone
      owner_child := fun hs => absurd hs hnone
      singleton_live := fun hd => by cases hd
      singleton_inj := fun hd => by cases hd
      merged := fun hs => absurd hs hnone
      inserted_iff := fun hs => absurd hs hnone
      listed := fun hs => absurd hs hnone }

/-- Nothing is asked of what definitions declare. -/
def anything : Engine → ScopeId → StyleBody → Prop := fun _ _ _ => True

end Engine

/-- Each styleset that is declared in the call is declared under `P`. -/
def Request.Declares (P : Engine → ScopeId → StyleBody → Prop) (library : Library μ) :
    Request μ → Engine × μ → Prop
  | .process limit key, s | .activateDefinition limit key, s =>
    s.1.scopeOf? (library key).key = none → Engine.InstanceDeclares P
      (Engine.calls library limit) (Engine.watch P library limit) (library key) s
  | .processInstance limit d, s =>
    Engine.InstanceDeclares P (Engine.calls library limit) (Engine.watch P library limit) d s
  | _, _ => True

/-- Nothing is asked of calls when all stylesets are allowed. -/
theorem Request.declares_anything (library : Library μ) (request : Request μ) (s : Engine × μ) :
    request.Declares Engine.anything library s := by
  have hinstance : ∀ limit d, Engine.InstanceDeclares Engine.anything (Engine.calls library limit)
      (Engine.watch Engine.anything library limit) d s := by
    intro limit d _ _
    have hwatch := Engine.watch_of_forall (P := Engine.anything)
      (fun _ _ _ => trivial) library limit
    exact Script.declares_of_forall (fun _ _ _ => trivial) hwatch.1 hwatch.2 _ _ _
  cases request with
  | process limit key => exact fun _ => hinstance limit (library key)
  | activateDefinition limit key => exact fun _ => hinstance limit (library key)
  | processInstance limit d => exact hinstance limit d
  | activate id => trivial
  | deactivate id => trivial
  | nameFor id slot => trivial
  | configure naming supports ambient => trivial

/-- Nothing of the scope is changed but its state, its users and its names. -/
structure Scope.Continued (s s' : Scope) : Prop where
  eq_names : s' = { s with state := s'.state, users := s'.users, names := s'.names }

instance : IsPreorder Scope Scope.Continued where
  refl _ := ⟨rfl⟩
  trans s s' s'' h h' := ⟨by rw [h'.eq_names, h.eq_names]⟩

namespace Engine

/-- The scope of a definition of a library is built. -/
theorem process_builds {library : Library μ} {limit key : Nat} {s s' : Engine × μ}
    {r : Except Error ScopeId} (hs : Sound [] s.1)
    (h : process library limit key s = some (r, s')) :
    Builds anything [] s.1 s'.1 ∧ Reached s'.1 r :=
  processWith_builds (calls_reaches library limit) hs
    ((Request.process limit key).declares_anything library s) h

/-- So is the scope of an instance of a definition. -/
theorem processInstance_builds {library : Library μ} {limit : Nat} {d : Definition μ}
    {s s' : Engine × μ} {r : Except Error ScopeId} (hs : Sound [] s.1)
    (h : processInstance library limit d s = some (r, s')) :
    Builds anything [] s.1 s'.1 ∧ Reached s'.1 r :=
  processInstanceWith_builds (calls_reaches library limit) hs
    ((Request.processInstance limit d).declares_anything library s) h

/-- Asking for a name renames scopes. -/
theorem nameFor_renamed (id : ScopeId) (slot : String) (e : Engine) :
    Rescoped (fun k => Scope.Renamed (e.Inside k id)) e (nameFor id slot e).2 :=
  nameForWithin_renamed e.walkLimit id slot e

/-- **What a call does to an engine,** one thing after the other. -/
inductive Served (P : Engine → ScopeId → StyleBody → Prop) : Engine → Engine → Prop
  /-- Definitions declare, or something is changed that is no scope. -/
  | builds {e e'} (h : Builds P [] e e') : Served P e e'
  /-- Scopes get users and lose them. -/
  | reuses {e e'} (h : Rescoped (fun _ => Scope.Reused True) e e') : Served P e e'
  /-- Names are given. -/
  | renames {id e e'} (h : Rescoped (fun k => Scope.Renamed (e.Inside k id)) e e') : Served P e e'
  /-- Two of these. -/
  | trans {e e' e''} (first : Served P e e') (second : Served P e' e'') : Served P e e''

/-- It keeps the engine sound. -/
theorem Served.sound {P : Engine → ScopeId → StyleBody → Prop} {e e' : Engine}
    (h : Served P e e') (hs : Sound [] e) : Sound [] e' := by
  induction h with
  | builds h => exact (h.sound hs).1
  | reuses h => exact hs.reused h
  | renames h => exact hs.relinked (h.mono fun _ _ _ _ hk => hk.relinked)
  | trans _ _ ih ih' => exact ih' (ih hs)

/-- Between calls nothing of a scope is changed but its state, its users and its names. -/
theorem Served.continued {P : Engine → ScopeId → StyleBody → Prop} {e e' : Engine}
    (h : Served P e e') (hs : Sound [] e) : Carries (fun _ => Scope.Continued) e e' := by
  induction h with
  | builds h => exact fun k s hk => ⟨s, (h.sound hs).2.settled hk (hs.settled hk), ⟨rfl⟩⟩
  | reuses h => exact .rescoped h fun _ _ _ hR => ⟨by rw [hR.eq_users]⟩
  | renames h => exact .rescoped h fun _ _ _ hR => ⟨by rw [hR.eq_names]⟩
  | trans first _ ih ih' => exact (ih hs).trans (ih' (first.sound hs))

end Engine

/-- **Calls do nothing else.** -/
theorem Performed.served {P : Engine → ScopeId → StyleBody → Prop} {library : Library μ}
    {request : Request μ} {s s' : Session μ σ} {r : Answer}
    (h : Performed library request s r s') (hs : Engine.Sound [] s.engine)
    (hd : request.Declares P library (s.engine, s.memory)) :
    Engine.Served P s.engine s'.engine := by
  -- Definitions are processed in the same way by three of the calls.
  have hbuilds : ∀ {limit key r s₁}, (Request.process limit key).Declares P library
      (s.engine, s.memory) → Engine.process library limit key (s.engine, s.memory) = some (r, s₁) →
      Engine.Builds P [] s.engine s₁.1 := fun hd h =>
    (Engine.processWith_builds (Engine.calls_reaches library _) hs hd h).1
  cases h with
  | process h => exact .builds (hbuilds hd h)
  | processInstance h =>
    exact .builds (Engine.processInstanceWith_builds (Engine.calls_reaches library _) hs hd h).1
  | @activate id s r e sink h =>
    have hR := Engine.activate_reused hs.linked id s.sink
    rw [h] at hR
    exact .reuses hR
  | unprocessed h => exact .builds (hbuilds hd h)
  | @activateDefinition limit key s id e m r e' sink h h' =>
    have hbuilt := hbuilds hd h
    have hR := Engine.activate_reused (hbuilt.sound hs).1.linked id s.sink
    rw [h'] at hR
    exact .trans (.builds hbuilt) (.reuses hR)
  | @deactivate id s r e sink h =>
    have hR := Engine.deactivate_reused hs.linked id s.sink
    rw [h] at hR
    exact .reuses hR
  | @nameFor id slot s r e h =>
    have hR := Engine.nameFor_renamed id slot s.engine
    rw [h] at hR
    exact .renames hR
  | configure h =>
    subst h
    exact .builds (.aside rfl rfl rfl)

/-- A call keeps the engine sound. -/
theorem Performed.sound {library : Library μ} {request : Request μ} {s s' : Session μ σ}
    {r : Answer} (h : Performed library request s r s') (hs : Engine.Sound [] s.engine) :
    Engine.Sound [] s'.engine :=
  (h.served hs (request.declares_anything library (s.engine, s.memory))).sound hs

/-- **A run:** calls one after the other, with their answers. Each call has a sink, which may be
    another one every time. -/
inductive Run (library : Library μ) (start : Engine × μ) :
    List (Request μ × Answer) → Engine × μ → Prop
  /-- Nothing is called. -/
  | start : Run library start [] start
  /-- One more call. -/
  | call {σ : Type} [Sink σ] {steps e m r} {s' : Session μ σ}
    (before : Run library start steps (e, m)) (request : Request μ) (sink : σ)
    (h : request.perform library ⟨e, m, sink⟩ = some (r, s')) :
    Run library start (steps ++ [(request, r)]) (s'.engine, s'.memory)

/-- **Between calls the links are sound and all scopes are processed.** -/
theorem Run.sound {library : Library μ} {start s : Engine × μ} {steps : List (Request μ × Answer)}
    (h : Run library start steps s) (hs : Engine.Sound [] start.1) : Engine.Sound [] s.1 := by
  induction h with
  | start => exact hs
  | call before request sink h ih => exact (Request.performed h).sound ih

/-! ### One sink -/

/-- **Do what is asked, one call after the other.** The calls share the session's sink. -/
def Session.performAll (library : Library μ) :
    List (Request μ) → Session μ σ → Option (List (Request μ × Answer) × Session μ σ)
  | [], s => some ([], s)
  | request :: rest, s =>
    match request.perform library s with
    | some (r, s') =>
      match performAll library rest s' with
      | some (steps, s'') => some ((request, r) :: steps, s'')
      | none => none
    | none => none

/-- The first call, and the others behind it. -/
theorem Session.performAll_cons {library : Library μ} {request : Request μ}
    {rest : List (Request μ)} {s s'' : Session μ σ} {steps : List (Request μ × Answer)}
    (h : Session.performAll library (request :: rest) s = some (steps, s'')) :
    ∃ r s' later, request.perform library s = some (r, s') ∧
      Session.performAll library rest s' = some (later, s'') ∧ steps = (request, r) :: later := by
  unfold Session.performAll at h
  rcases h₁ : request.perform library s with _ | ⟨r, s'⟩ <;> simp only [h₁] at h
  · cases h
  · rcases h₂ : Session.performAll library rest s' with _ | ⟨later, s₂⟩ <;> simp only [h₂] at h
    · cases h
    · cases h
      exact ⟨r, s', later, rfl, h₂, rfl⟩

/-- Some calls, and then others. -/
theorem Session.performAll_append {library : Library μ} {requests more : List (Request μ)}
    {s s₁ s₂ : Session μ σ} {steps later : List (Request μ × Answer)}
    (h : Session.performAll library requests s = some (steps, s₁))
    (h' : Session.performAll library more s₁ = some (later, s₂)) :
    Session.performAll library (requests ++ more) s = some (steps ++ later, s₂) := by
  induction requests generalizing s steps with
  | nil =>
    cases h
    exact h'
  | cons request rest ih =>
    obtain ⟨r, t, between, h₁, h₂, rfl⟩ := Session.performAll_cons h
    rw [List.cons_append, Session.performAll, h₁]
    simp only
    rw [ih h₂]
    rfl

/-- A definition is processed, and then there are other calls. -/
theorem Session.performAll_process {library : Library μ} {later : List (Request μ)}
    {limit key : Nat} {id : ScopeId} {e : Engine} {m : μ} {s s' : Session μ σ}
    {steps : List (Request μ × Answer)}
    (h : Engine.process library limit key (s.engine, s.memory) = some (.ok id, (e, m)))
    (h' : Session.performAll library later ⟨e, m, s.sink⟩ = some (steps, s')) :
    Session.performAll library (.process limit key :: later) s =
      some ((.process limit key, .ok (some id)) :: steps, s') := by
  have hperform : Request.perform library (.process limit key) s =
      some (.ok (some id), ⟨e, m, s.sink⟩) := by
    show (some <$> building (Engine.process library limit key)) s = _
    rw [map_eq_pure_bind, partial_bind]
    unfold building
    rw [h]
    rfl
  rw [performAll, hperform]
  simp only
  rw [h']

/-- Calls with one sink are a run. -/
theorem Run.performAll {library : Library μ} {start : Engine × μ}
    {before steps : List (Request μ × Answer)} {requests : List (Request μ)} {s s' : Session μ σ}
    (h : Run library start before (s.engine, s.memory))
    (hall : Session.performAll library requests s = some (steps, s')) :
    Run library start (before ++ steps) (s'.engine, s'.memory) := by
  induction requests generalizing before steps s with
  | nil =>
    cases hall
    rw [List.append_nil]
    exact h
  | cons request rest ih =>
    obtain ⟨r, s₁, later, h₁, h₂, rfl⟩ := Session.performAll_cons hall
    have hstep := ih (h.call request s.sink h₁) h₂
    rwa [List.append_assoc] at hstep

/-- Calls change nothing of a scope but its state, its users and its names. -/
theorem Session.performAll_continued {library : Library μ} {requests : List (Request μ)}
    {s s' : Session μ σ} {steps : List (Request μ × Answer)}
    (h : Session.performAll library requests s = some (steps, s')) (hs : Engine.Sound [] s.engine) :
    Engine.Carries (fun _ => Scope.Continued) s.engine s'.engine := by
  induction requests generalizing s steps with
  | nil =>
    cases h
    exact .refl _
  | cons request rest ih =>
    obtain ⟨r, s₁, later, h₁, h₂, -⟩ := performAll_cons h
    have hperformed := Request.performed h₁
    have hserved := hperformed.served hs (request.declares_anything library (s.engine, s.memory))
    exact (hserved.continued hs).trans (ih h₂ (hperformed.sound hs))

/-- The calls that were made are those that were asked for. -/
theorem Session.performAll_fst {library : Library μ} {requests : List (Request μ)}
    {s s' : Session μ σ} {steps : List (Request μ × Answer)}
    (h : Session.performAll library requests s = some (steps, s')) :
    steps.map Prod.fst = requests := by
  induction requests generalizing s steps with
  | nil =>
    cases h
    rfl
  | cons request rest ih =>
    obtain ⟨r, s₁, later, -, h₂, rfl⟩ := Session.performAll_cons h
    rw [List.map_cons, ih h₂]

/-- If all calls succeed, the answers say it all. -/
theorem Session.performAll_eq_zip {library : Library μ} {requests : List (Request μ)}
    {s s' : Session μ σ} {steps : List (Request μ × Answer)}
    (h : Session.performAll library requests s = some (steps, s')) {answers : List (Option ScopeId)}
    (ha : steps.map (·.2.toOption) = answers.map some) :
    steps = requests.zip (answers.map .ok) := by
  have hsnd : steps.map Prod.snd = answers.map Except.ok := by
    -- Requests and answers are told apart by position, and no answer is an error.
    clear h
    induction steps generalizing answers with
    | nil =>
      cases answers with
      | nil => rfl
      | cons a rest => cases ha
    | cons step steps ih =>
      cases answers with
      | nil => cases ha
      | cons a rest =>
        obtain ⟨q, err | answer⟩ := step
        · cases ha
        · rw [List.map_cons, List.map_cons, List.cons.injEq] at ha
          cases ha.1
          rw [List.map_cons, List.map_cons, ih ha.2]
  rw [← hsnd, ← performAll_fst h, List.zip_map', List.map_id'']
  exact fun _ => rfl

/-! ### A sample -/

/-- A library of four definitions. The first one uses the second one, which has a text; the third
    one also uses the last one, which has a rule that needs a name and never gets one. -/
def sampleLibrary : Library Unit
  | 0 => ⟨0, "Top", "top", false, .use 1 fun _ => .done⟩
  | 1 => ⟨1, "Base", "base", false, .add "spin" (.animation []) fun _ => .done⟩
  | 2 => ⟨2, "Torn", "torn", false, .use 1 fun _ => .use 3 fun _ => .done⟩
  | key => ⟨key, "Nameless", "nameless", false, .addUnnamed (.animation []) fun _ => .done⟩

/-- A session that has done nothing yet. -/
def freshSession {σ : Type} (sink : σ) : Session Unit σ :=
  ⟨Engine.create {} .empty .initial, (), sink⟩

end StyleBook
