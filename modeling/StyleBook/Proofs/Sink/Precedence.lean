import StyleBook.Proofs.Sink.Chronicles

namespace StyleBook

/-!
# What a scope references comes first

As long as no scope is deactivated more often than it was activated, the texts of an active scope
stand behind the texts of all scopes that it references.

* `Journal.InOrder references done` — each block stands behind the blocks of all that its scope
  references, apart from what is done already;
* `Engine.Inserts.inOrder` — so stand the blocks that an activation inserts;
* `Engine.Upheld` — what an active scope references is active; `Run.upheld` — so it is after
  balanced calls;
* `Noted.grounded` — a call keeps the order of the blocks;
* `Session.references_first` — so the texts in a sink that was empty at first stand in order;
* `Session.referenced_earlier` — the same of the places of single texts.
-/

/-! ### Blocks in order -/

namespace Journal

variable {references references' : ScopeId → ScopeId → Prop} {done done' : ScopeId → Prop}
  {journal more : Journal} {cleared : List ScopeId}

/-- Each block stands behind the blocks of all that its scope references, apart from what is done
    already. -/
def InOrder (references : ScopeId → ScopeId → Prop) (done : ScopeId → Prop) : Journal → Prop
  | [] => True
  | (k, _) :: rest =>
    (∀ r, references k r → done r) ∧ InOrder references (fun j => done j ∨ j = k) rest

/-- Fewer references have to stand in order, and more may stand before. -/
theorem InOrder.mono (h : InOrder references done journal)
    (hr : ∀ k ∈ Dict.keys journal, ∀ r, references' k r → references k r)
    (hd : ∀ k, done k → done' k) : InOrder references' done' journal := by
  induction journal generalizing done done' with
  | nil => trivial
  | cons block rest ih =>
    obtain ⟨k, texts⟩ := block
    rw [Dict.keys_cons, List.forall_mem_cons] at hr
    exact ⟨fun r hkr => hd r (h.1 r (hr.1 r hkr)), ih h.2 hr.2 fun j hj => hj.imp_left (hd j)⟩

/-- What stands in the first part is done for the second one. -/
theorem inOrder_append : InOrder references done (journal ++ more) ↔
    InOrder references done journal ∧
      InOrder references (fun j => done j ∨ j ∈ Dict.keys journal) more := by
  induction journal generalizing done with
  | nil =>
    have hdone : (fun j => done j ∨ j ∈ Dict.keys ([] : Journal)) = done :=
      funext fun j => propext (or_iff_left List.not_mem_nil)
    rw [hdone]
    exact (and_iff_right trivial).symm
  | cons block rest ih =>
    obtain ⟨k, texts⟩ := block
    have hdone : (fun j => done j ∨ j ∈ Dict.keys ((k, texts) :: rest)) =
        fun j => (done j ∨ j = k) ∨ j ∈ Dict.keys rest :=
      funext fun j => propext (by rw [Dict.keys_cons, List.mem_cons, or_assoc])
    rw [hdone]
    exact (and_congr_right fun _ => ih).trans and_assoc.symm

/-- Blocks that go do not disturb the order, if all go that reference what goes. -/
theorem InOrder.without (h : InOrder references done journal)
    (hkept : ∀ k ∈ Dict.keys journal, k ∉ cleared → ∀ r, references k r → r ∉ cleared) :
    InOrder references (fun j => done j ∧ j ∉ cleared) (journal.without cleared) := by
  induction journal generalizing done with
  | nil => trivial
  | cons block rest ih =>
    obtain ⟨k, texts⟩ := block
    rw [Dict.keys_cons, List.forall_mem_cons] at hkept
    have hrest := ih h.2 hkept.2
    unfold Journal.without at hrest ⊢
    by_cases hk : k ∈ cleared
    · rw [List.filter_cons_of_neg (by simpa using hk)]
      refine hrest.mono (fun _ _ _ hjr => hjr) fun j hj => ⟨hj.1.resolve_right fun heq => ?_, hj.2⟩
      exact hj.2 (heq ▸ hk)
    · rw [List.filter_cons_of_pos (by simpa using hk)]
      refine ⟨fun r hkr => ⟨h.1 r hkr, hkept.1 hk r hkr⟩, hrest.mono (fun _ _ _ hjr => hjr) ?_⟩
      exact fun j hj => hj.1.imp_left fun hdone => ⟨hdone, hj.2⟩

end Journal

/-! ### References -/

namespace Engine

variable {e e₁ e' : Engine} {k r : ScopeId} {ids : List ScopeId} {blocks : Journal}
  {rank : ScopeId → Nat}

/-- The first scope references the second one. -/
def References (e : Engine) (k r : ScopeId) : Prop :=
  ∃ s, e.scope? k = some s ∧ r ∈ s.references

/-- Users and states have nothing to do with references. -/
theorem references_of_reused (h : Rescoped (fun _ => Scope.Reused True) e e') :
    e'.References k r ↔ e.References k r := by
  constructor
  · rintro ⟨s', hs', hr⟩
    obtain ⟨s, hs, hR⟩ := h.back hs'
    exact ⟨s, hs, hR.references ▸ hr⟩
  · rintro ⟨s, hs, hr⟩
    obtain ⟨s', hs', hR⟩ := h.scope hs
    exact ⟨s', hs', hR.references ▸ hr⟩

/-- **Between calls a scope keeps its references.** -/
theorem Served.references {P : Engine → ScopeId → StyleBody → Prop} (h : Served P e e')
    (hs : Sound [] e) {s : Scope} (hk : e.scope? k = some s) :
    e'.References k r ↔ e.References k r := by
  obtain ⟨s', hs', hR⟩ := h.continued hs k s hk
  have hsame : s'.references = s.references := by rw [hR.eq_names]
  constructor
  · rintro ⟨t, ht, hr⟩
    cases hs'.symm.trans ht
    exact ⟨s, hk, hsame ▸ hr⟩
  · rintro ⟨t, ht, hr⟩
    cases hk.symm.trans ht
    exact ⟨s', hs', hsame ▸ hr⟩

/-! ### Activating -/

/-- Scopes that are activated are active. -/
theorem Inserts.active (h : Inserts e ids blocks e') (hr : Ranked rank e) (hk : k ∈ ids) :
    0 < e'.usersOf k := by
  induction h with
  | nil => exact absurd hk List.not_mem_nil
  | @shared e e' id ids blocks s users hs hu hrest ih =>
    have hstep := (Inserts.shared hs hu .nil).reused
    rcases List.mem_cons.mp hk with rfl | hk
    -- Later activations take no users away, so the two that the scope has by now are left.
    · have hle := ((hrest.keys (hr.rescoped hstep)).2 k).1
      have husers : ((e.setUsers k (users + 2)).report (.alreadyActive s.name (users + 2))).usersOf
        k
          = users + 2 := (usersOf_modifyScope hs).trans (if_pos rfl)
      omega
    · exact ih (hr.rescoped hstep) hk
  | @first e e₁ e' id ids inner blocks s texts ambient hs hu ht hrefs hrest _ ih =>
    have hambient : Rescoped (fun _ => Scope.Reused True) e { e with ambient } :=
      .of_scopes_eq rfl rfl rfl
    have hmarked : Rescoped (fun _ => Scope.Reused True) e₁ (e₁.markInserted id s) :=
      (Rescoped.modifyScope fun _ _ => .insert trivial Nat.one_pos).trans (.report _)
    have hr₁ := ((hr.rescoped hambient).rescoped hrefs.reused).rescoped hmarked
    -- The scope was marked after its references were activated, and has one user since.
    rcases List.mem_cons.mp hk with rfl | hk
    · obtain ⟨t, ht', -⟩ := (hambient.trans hrefs.reused).scope hs
      have hle := ((hrest.keys hr₁).2 k).1
      have husers : (e₁.markInserted k s).usersOf k = 1 :=
        (usersOf_modifyScope ht').trans (if_pos rfl)
      omega
    · exact ih hr₁ hk

/-- **Blocks are inserted in order:** what a scope references was active before, or its block comes
    before that of the scope. -/
theorem Inserts.inOrder (h : Inserts e ids blocks e') (hr : Ranked rank e) :
    blocks.InOrder e.References fun k => 0 < e.usersOf k := by
  induction h with
  | nil => trivial
  | @shared e e' id ids blocks s users hs hu _ ih =>
    have hstep := (Inserts.shared hs hu .nil).reused
    refine (ih (hr.rescoped hstep)).mono (fun _ _ _ => (references_of_reused hstep).mpr) ?_
    intro k hk
    have husers : ((e.setUsers id (users + 2)).report (.alreadyActive s.name (users + 2))).usersOf
      k =
        if k = id then users + 2 else e.usersOf k := usersOf_modifyScope hs
    by_cases hkid : k = id
    · subst hkid
      rw [usersOf_eq hs, hu]
      exact Nat.succ_pos users
    · rwa [husers, if_neg hkid] at hk
  | @first e e₁ e' id ids inner blocks s texts ambient hs hu ht hrefs _ ihr ih =>
    have hambient : Rescoped (fun _ => Scope.Reused True) e { e with ambient } :=
      .of_scopes_eq rfl rfl rfl
    have hmarked : Rescoped (fun _ => Scope.Reused True) e₁ (e₁.markInserted id s) :=
      (Rescoped.modifyScope fun _ _ => .insert trivial Nat.one_pos).trans (.report _)
    have hinner := hambient.trans hrefs.reused
    have hr₁ := (hr.rescoped hambient).rescoped hrefs.reused
    -- What is active when the references are was so before, or its block is among theirs.
    have hdone : ∀ k, 0 < e₁.usersOf k → 0 < e.usersOf k ∨ k ∈ Dict.keys inner := by
      intro k hk
      obtain ⟨-, hiff⟩ := (hrefs.keys (hr.rescoped hambient)).2 k
      change _ ↔ e.usersOf k = 0 ∧ _ at hiff
      rw [hiff]
      omega
    refine Journal.inOrder_append.mpr ⟨?_, fun r hkr => hdone r ?_, ?_⟩
    · exact (ihr (hr.rescoped hambient)).mono (fun _ _ _ => (references_of_reused hambient).mpr)
        fun _ hk => hk
    · obtain ⟨t, ht', hmem⟩ := hkr
      cases hs.symm.trans ht'
      exact hrefs.active (hr.rescoped hambient) hmem
    · refine (ih (hr₁.rescoped hmarked)).mono
        (fun _ _ _ => (references_of_reused (hinner.trans hmarked)).mpr) fun k hk => ?_
      obtain ⟨t, ht', -⟩ := hinner.scope hs
      have husers : (e₁.markInserted id s).usersOf k = if k = id then 1 else e₁.usersOf k :=
        usersOf_modifyScope ht'
      by_cases hkid : k = id
      · exact .inr hkid
      · rw [husers, if_neg hkid] at hk
        exact .inl (hdone k hk)

/-! ### Balanced calls -/

/-- What an active scope references is active. -/
def Upheld (e : Engine) : Prop := ∀ k r, e.References k r → 0 < e.usersOf k → 0 < e.usersOf r

end Engine

open Engine

variable {μ : Type} {library : Library μ} {naming : NamingConfig} {catalog : Catalog}
  {ambient : Ambient} {memory : μ}

/-- Calls are balanced as long as they go on being balanced. -/
theorem Balanced.of_append {steps more : List (Request μ × Answer)}
    (hb : Balanced (steps ++ more)) : Balanced steps :=
  fun before hbefore => hb before (hbefore.trans (List.prefix_append _ _))

/-- Calls that deactivate nothing are balanced. -/
theorem Balanced.of_not_deactivated {steps : List (Request μ × Answer)}
    (h : ∀ step ∈ steps, ∀ id, Request.deactivated id step = false) : Balanced steps := by
  intro before hbefore id
  have hnone : deactivations id before = 0 := List.countP_eq_zero.mpr fun step hstep => by
    rw [h step (hbefore.subset hstep) id]
    exact Bool.false_ne_true
  omega

/-- **After balanced calls all is active that an active scope references.** -/
theorem Run.upheld {steps : List (Request μ × Answer)} {s : Engine × μ}
    (h : Run library (create naming catalog ambient, memory) steps s) (hb : Balanced steps) :
    s.1.Upheld := by
  rintro k r ⟨t, ht, hr⟩ hpos
  -- The program holds no scope less than not at all.
  have hheld : s.1.held r = _ := h.held_eq hb r
  have hle := hb steps (List.prefix_refl _) r
  have hcount := activeReferencers_pos ht (usersOf_eq ht ▸ hpos) hr
  unfold held at hheld
  omega

/-! ### Journals of balanced calls -/

/-- Each block stands behind those of all that its scope references. -/
def Journal.Grounded (journal : Journal) (e : Engine) : Prop :=
  journal.InOrder e.References fun _ => False

/-- What serves the engine keeps the order of the blocks of active scopes. -/
theorem Journal.Grounded.served {P : Engine → ScopeId → StyleBody → Prop} {journal : Journal}
    {e e' : Engine} (h : journal.Grounded e) (hserved : Served P e e') (hs : Sound [] e)
    (hmem : ∀ k ∈ Dict.keys journal, 0 < e.usersOf k) : journal.Grounded e' := by
  refine InOrder.mono h (fun k hk r hkr => ?_) fun _ hf => hf
  obtain ⟨t, ht, -⟩ := scope?_of_usersOf (Nat.ne_of_gt (hmem k hk))
  exact (hserved.references hs ht).mp hkr

/-- Blocks that come in stand behind the others. -/
theorem Journal.Grounded.inserts {journal blocks : Journal} {e e' : Engine} {ids : List ScopeId}
    (h : journal.Grounded e) (hins : Inserts e ids blocks e') (hs : Sound [] e)
    (hmem : ∀ k, 0 < e.usersOf k → k ∈ Dict.keys journal) : (journal ++ blocks).Grounded e' := by
  obtain ⟨rank, hrank⟩ := hs.linked.exists_ranked
  have hsame : ∀ k r, e'.References k r → e.References k r :=
    fun _ _ => (references_of_reused hins.reused).mp
  refine inOrder_append.mpr ⟨InOrder.mono h (fun k _ => hsame k) fun _ hf => hf, ?_⟩
  exact (hins.inOrder hrank).mono (fun k _ => hsame k) fun k hk => .inr (hmem k hk)

/-- **A call keeps the order of the blocks,** if all is active afterwards that an active scope
    references. -/
theorem Noted.grounded {request : Request μ} {r : Answer} {s : Engine × μ} {e' : Engine}
    {journal journal' : Journal} (h : Noted library request r s e' journal journal')
    (hs : Sound [] s.1) (hserved : Served anything s.1 e')
    (hmem : ∀ k, k ∈ Dict.keys journal ↔ 0 < s.1.usersOf k)
    (hmem' : ∀ k, k ∈ Dict.keys journal' ↔ 0 < e'.usersOf k) (hupheld : e'.Upheld)
    (hj : journal.Grounded s.1) : journal'.Grounded e' := by
  cases h with
  | inserted h => exact hj.inserts h hs fun k => (hmem k).mpr
  | processed h h' =>
    have hbuilds := (process_builds hs h).1
    obtain ⟨hs₁, hx⟩ := hbuilds.sound hs
    have hj₁ := hj.served (.builds hbuilds) hs fun k => (hmem k).mp
    refine hj₁.inserts h' hs₁ fun k hk => (hmem k).mpr ?_
    rwa [(hx.users_eq hs hs₁ k).1] at hk
  | @released id e e' m journal cleared h =>
    have hkept := hj.served hserved hs fun k => (hmem k).mp
    refine (Journal.InOrder.without hkept fun k hk hkc r hkr hrc => ?_).mono (fun _ _ _ hjr => hjr)
      fun _ hf => hf.1
    -- What stays is active, and so is what it references; that is not cleared.
    have hk' : k ∈ Dict.keys (journal.without cleared) := by
      rw [Journal.keys_without, List.mem_filter]
      exact ⟨hk, by simpa using hkc⟩
    have hr' := (hmem' r).mpr (hupheld k r hkr ((hmem' k).mp hk'))
    rw [Journal.keys_without, List.mem_filter] at hr'
    exact of_decide_eq_true hr'.2 hrc
  | other h => exact hj.served hserved hs fun k => (hmem k).mp

/-- **Balanced calls keep the order of the blocks.** -/
theorem Session.performAll_grounded {before steps : List (Request μ × Answer)}
    {requests : List (Request μ)} {s s' : Session μ (TextSink × SheetSink)} {journal : Journal}
    (h : Run library (create naming catalog ambient, memory) before (s.engine, s.memory))
    (hkept : journal.Kept s.engine s.sink) (hj : journal.Grounded s.engine)
    (hall : Session.performAll library requests s = some (steps, s'))
    (hb : Balanced (before ++ steps)) :
    ∃ journal' : Journal, journal'.Kept s'.engine s'.sink ∧ journal'.Grounded s'.engine := by
  induction requests generalizing before steps s journal with
  | nil =>
    cases hall
    exact ⟨journal, hkept, hj⟩
  | cons request rest ih =>
    -- The journal goes along with each call, as the sinks do; what is left to show is that it is in
    -- order after one call.
    obtain ⟨r, s₁, later, h₁, h₂, rfl⟩ := Session.performAll_cons hall
    rw [← List.singleton_append, ← List.append_assoc] at hb
    have hs := h.sound (sound_create naming catalog ambient)
    have hperformed := Request.performed h₁
    have hrun := h.call request s.sink h₁
    obtain ⟨journal₁, hnoted, hkept₁⟩ := hperformed.noted hs hkept
    have hserved := hperformed.served hs (request.declares_anything library (s.engine, s.memory))
    have hj₁ := hnoted.grounded hs hserved hkept.mem_iff hkept₁.mem_iff
      (hrun.upheld hb.of_append) hj
    exact ih hrun hkept₁ hj₁ h₂ hb

/-! ### Where texts stand -/

/-- The texts of a scope stand behind the texts of another one. -/
def TextSink.Behind (sink : TextSink) (k r : ScopeId) : Prop :=
  ∃ front back, sink.rules = front ++ back ∧ (∀ entry ∈ front, entry.1 ≠ k) ∧
    ∀ entry ∈ back, entry.1 ≠ r

/-- **The texts of an active scope stand behind those of all that it references.** -/
theorem Journal.Kept.behind {journal : Journal} {e : Engine} {sinks : TextSink × SheetSink}
    (h : journal.Kept e sinks) (hj : journal.Grounded e) {k r : ScopeId}
    (hkr : e.References k r) (hk : 0 < e.usersOf k) : sinks.1.Behind k r := by
  obtain ⟨⟨j, texts⟩, hmem, hjk⟩ := List.mem_map.mp ((h.mem_iff k).mpr hk)
  obtain ⟨earlier, later, rfl⟩ := List.append_of_mem hmem
  change j = k at hjk
  subst hjk
  obtain ⟨-, hfirst, -⟩ := inOrder_append.mp hj
  have hr : r ∈ Dict.keys earlier := (hfirst r hkr).resolve_left id
  -- No scope has a block before and another one behind.
  have hnodup : (Dict.keys earlier ++ Dict.keys ((j, texts) :: later)).Nodup := by
    have hsplit : Dict.keys (earlier ++ (j, texts) :: later) =
        Dict.keys earlier ++ Dict.keys ((j, texts) :: later) := List.map_append
    exact hsplit ▸ h.nodup
  have hdisjoint := (List.nodup_append.mp hnodup).2.2
  refine ⟨entries earlier, entries ((j, texts) :: later), ?_, fun entry hin heq => ?_,
    fun entry hin heq => ?_⟩
  · rw [h.rules, entries_append]
  · exact hdisjoint _ (mem_of_mem_entries hin) _ List.mem_cons_self heq
  · exact hdisjoint r hr _ (mem_of_mem_entries hin) heq.symm

/-- **What an active scope references is active, and its texts come first,** after balanced calls
    that share one sink, which was empty at first. -/
theorem Session.references_first {requests : List (Request μ)}
    {steps : List (Request μ × Answer)} {s : Session μ TextSink}
    (hall : performAll library requests ⟨create naming catalog ambient, memory, .empty⟩ =
      some (steps, s)) (hb : Balanced steps) {k r : ScopeId} (hkr : s.engine.References k r)
    (hk : 0 < s.engine.usersOf k) : 0 < s.engine.usersOf r ∧ s.sink.Behind k r := by
  let both : Session μ (TextSink × SheetSink) :=
    ⟨create naming catalog ambient, memory, (.empty, .empty)⟩
  have hleft := performAll_mapSink Sink.hom_fst library requests both
  rcases hboth : performAll library requests both with _ | ⟨steps', s'⟩ <;> rw [hboth] at hleft
  · cases hall.symm.trans hleft
  · cases hall.symm.trans hleft
    have hstart : Journal.Grounded [] both.engine := trivial
    obtain ⟨journal, hkept, hj⟩ := performAll_grounded .start (.empty naming catalog ambient)
      hstart hboth hb
    have hrun := Run.performAll .start hboth
    exact ⟨hrun.upheld hb k r hkr hk, hkept.behind hj hkr hk⟩

/-- Texts that stand behind those of another scope have the later places. -/
theorem TextSink.Behind.lt {sink : TextSink} {k r : ScopeId} (h : sink.Behind k r) {i j : Nat}
    {text text' : String} (hi : sink.rules[i]? = some (r, text))
    (hj : sink.rules[j]? = some (k, text')) : i < j := by
  obtain ⟨front, back, hsink, hfront, hback⟩ := h
  rw [hsink] at hi hj
  -- The texts of `r` end before the cut, and those of `k` begin behind it.
  have hcut : i < front.length := by
    by_contra hle
    rw [List.getElem?_append_right (Nat.not_lt.mp hle)] at hi
    exact hback _ (List.mem_of_getElem? hi) rfl
  have hcut' : front.length ≤ j := by
    by_contra hlt
    rw [List.getElem?_append_left (Nat.not_le.mp hlt)] at hj
    exact hfront _ (List.mem_of_getElem? hj) rfl
  omega

/-- **At each time after balanced calls** that share one sink, which was empty at first, all that an
    active scope references is active, and each of its texts has an earlier place in the sink than
    each text of the scope that references it. -/
theorem Session.referenced_earlier {requests : List (Request μ)}
    {steps : List (Request μ × Answer)} {s : Session μ TextSink}
    (hall : performAll library requests ⟨create naming catalog ambient, memory, .empty⟩ =
      some (steps, s)) (hb : Balanced steps) {k r : ScopeId} (hkr : s.engine.References k r)
    (hk : 0 < s.engine.usersOf k) :
    0 < s.engine.usersOf r ∧ ∀ (i j : Nat) text text', s.sink.rules[i]? = some (r, text) →
      s.sink.rules[j]? = some (k, text') → i < j := by
  obtain ⟨hr, hbehind⟩ := references_first hall hb hkr hk
  exact ⟨hr, fun _ _ _ _ hi hj => hbehind.lt hi hj⟩

/-- A library of a definition that uses two others. All of them have a rule. -/
def layeredLibrary : Library Unit
  | 0 => ⟨0, "Theme", "theme", false, .add "spin" (.animation []) fun _ => .done⟩
  | 1 => ⟨1, "Base", "base", false,
      .use 0 fun _ => .add "rest" (.animation []) fun _ => .done⟩
  | key => ⟨key, "Page", "page", false,
      .add "turn" (.animation []) fun _ => .use 1 fun _ => .use 0 fun _ => .done⟩

/-- Two scopes go and come again while what they reference has another user. -/
theorem referenced_earlier_of_layers : ∃ steps s,
    Session.performAll layeredLibrary
        [.activateDefinition 3 2, .activate 3, .deactivate 1, .activate 1]
        (freshSession TextSink.empty) = some (steps, s) ∧
      Balanced steps ∧ s.engine.References 1 2 ∧ 0 < s.engine.usersOf 1 ∧
      s.sink.rules = [(3, "@keyframes theme_spin\x7b\x7d"), (2, "@keyframes base_rest\x7b\x7d"),
        (1, "@keyframes page_turn\x7b\x7d")] ∧
      0 < s.engine.usersOf 2 ∧ ∀ (i j : Nat) text text', s.sink.rules[i]? = some (2, text) →
        s.sink.rules[j]? = some (1, text') → i < j := by
  have hout : ((Session.performAll layeredLibrary
      [.activateDefinition 3 2, .activate 3, .deactivate 1, .activate 1]
      -- The sample is run; what it does is decided, and the general theorem says the rest.
      (freshSession TextSink.empty)).any fun out =>
        out.1.map (·.2.toOption) = [some 1, some 3, none, some 1].map some &&
          (out.2.engine.scope? 1).any (fun t => 2 ∈ t.references) && 0 < out.2.engine.usersOf 1 &&
          out.2.sink.rules = [(3, "@keyframes theme_spin\x7b\x7d"),
            (2, "@keyframes base_rest\x7b\x7d"), (1, "@keyframes page_turn\x7b\x7d")]) = true := by
    decide +kernel
  obtain ⟨⟨steps, s⟩, hall, hp⟩ := (Option.any_eq_true _ _).mp hout
  simp only [Bool.and_eq_true, decide_eq_true_eq] at hp
  obtain ⟨⟨⟨hanswers, hrefs⟩, hactive⟩, hrules⟩ := hp
  obtain ⟨t, ht, hmem⟩ := (Option.any_eq_true _ _).mp hrefs
  have hb : Balanced steps := by
    rw [Session.performAll_eq_zip hall hanswers]
    intro before hbefore id
    simp only [List.map_cons, List.map_nil, List.zip_cons_cons, List.zip_nil_right,
      List.prefix_cons_iff, List.prefix_nil] at hbefore
    rcases hbefore with rfl | ⟨_, rfl, rfl | ⟨_, rfl, rfl | ⟨_, rfl, rfl | ⟨_, rfl, rfl⟩⟩⟩⟩ <;>
      simp [activations, deactivations, Request.activated, Request.deactivated, List.countP_cons]
  have hkr : s.engine.References 1 2 := ⟨t, ht, of_decide_eq_true hmem⟩
  exact ⟨steps, s, hall, hb, hkr, hactive, hrules, Session.referenced_earlier hall hb hkr hactive⟩

end StyleBook
