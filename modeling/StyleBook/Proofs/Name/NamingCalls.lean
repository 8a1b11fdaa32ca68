import StyleBook.Proofs.Name.FreshNames

namespace StyleBook

/-!
# What calls of naming hand out

Names for rules and for scopes, and numbers, are asked for in any order, under policies that change
on the way. Names of one kind never coincide, and a number is taken once. The counter is a natural
number: there is always a next one.

* `Naming.Search` — a search for a number, which tries one after the other; `Naming.search_blocked`
  — the one for a free name ends, where naming says it does;
* `Naming.Call`, `Naming.performAll` — the calls there are, and the state behind a list of them;
* `Naming.ruleNames`, `Naming.scopeNamesOf`, `Naming.ids` — what the calls hand out, in order;
* `Naming.Registers` — the state knows all of it, and nothing is handed out twice;
* `Naming.generate_called`, `Naming.reserve_called` — which name a call
  makes behind any other calls.
-/

namespace Naming

/-! ### Searching -/

/-- **A search for a number that is free,** with the numbers that it passes over
    and the one it finds. -/
inductive Search (taken : Nat → Prop) : Nat → List Nat → Nat → Prop
  /-- The number is free. -/
  | found {id : Nat} (hfree : ¬ taken id) : Search taken id [] id
  /-- The number is taken, and the next one is tried. -/
  | passed {id last : Nat} {others : List Nat} (htaken : taken id)
    (rest : Search taken (id + 1) others last) : Search taken id (id :: others) last

namespace Search

variable {taken : Nat → Prop} {start last : Nat} {others : List Nat}

/-- It finds the first number that is free. -/
theorem isLeast (h : Search taken start others last) :
    IsLeast {id | start ≤ id ∧ ¬ taken id} last := by
  induction h with
  | found hfree => exact ⟨⟨le_refl _, hfree⟩, fun id hid => hid.1⟩
  | @passed start last others htaken rest ih =>
    obtain ⟨⟨hle, hfree⟩, hleast⟩ := ih
    refine ⟨⟨by omega, hfree⟩, fun id hid => hleast ⟨?_, hid.2⟩⟩
    -- The number itself is none of those that are free.
    have hne : id ≠ start := fun heq => hid.2 (heq ▸ htaken)
    have := hid.1
    omega

/-- The numbers on the way to it are those that it passes over. -/
theorem range'_eq (h : Search taken start others last) :
    List.range' start (last + 1 - start) = others ++ [last] := by
  induction h with
  | found => simp
  | @passed start last others htaken rest ih =>
    have hle : start + 1 ≤ last := rest.isLeast.1.1
    have hlength : last + 1 - start = (last + 1 - (start + 1)) + 1 := by omega
    rw [hlength, List.range'_succ, ih, List.cons_append]

/-- It ends if some number is free behind those that are taken. -/
theorem of_range' {count : Nat} (hpassed : ∀ id ∈ List.range' start count, taken id)
    (hfree : ¬ taken (start + count)) :
    Search taken start (List.range' start count) (start + count) := by
  induction count generalizing start with
  | zero => exact .found hfree
  | succ count ih =>
    rw [List.range'_succ] at hpassed ⊢
    rw [Nat.add_comm count, ← Nat.add_assoc] at hfree ⊢
    exact .passed (hpassed start List.mem_cons_self)
      (ih (fun id hid => hpassed id (List.mem_cons_of_mem _ hid)) hfree)

end Search

/-- **The search for a free name ends.** As different numbers make different names, it does not pass
    over more of them than there are. -/
theorem search_blocked {candidate : Nat → String} (hc : Function.Injective candidate)
    (taken : List String) (id : Nat) :
    Search (fun id => candidate id ∈ taken) id
      (List.range' id (blocked candidate taken id).length)
      (id + (blocked candidate taken id).length) := by
  obtain ⟨heq, hsub, -⟩ := takenFrom_spec candidate taken taken.length id
  refine .of_range' (fun passed hpassed => hsub ?_) (blocked_fresh hc taken id)
  rw [heq]
  exact List.mem_map_of_mem hpassed

/-! ### Names that are made -/

/-- A text with a number behind it is another text. -/
theorem suffixed_ne (text : String) (id : Nat) : suffixed text id ≠ text := by
  intro h
  have hlength := congrArg String.length h
  simp only [suffixed, String.length_append] at hlength
  have hunderscore : "_".length = 1 := rfl
  omega

variable {n : Naming} {scope slot name : String}

/-- Scope and slot are joined if that is free, and the counter stays where it is. -/
theorem generate_plain (hmode : n.mode = .readable) (hfree : scope ++ "_" ++ slot ∉ n.used) :
    n.generate scope slot =
      ⟨scope ++ "_" ++ slot, [], { n with used := (scope ++ "_" ++ slot) :: n.used }⟩ := by
  unfold generate
  rw [hmode]
  exact if_neg hfree

/-- If it is taken, the first number is put behind it with which it is free. -/
theorem generate_suffixed (hmode : n.mode = .readable) (htaken : scope ++ "_" ++ slot ∈ n.used) :
    ∃ others id, Search (fun id => suffixed (scope ++ "_" ++ slot) id ∈ n.used) n.nextId others id ∧
      (n.generate scope slot).name = suffixed (scope ++ "_" ++ slot) id ∧
      (n.generate scope slot).naming.nextId = id + 1 := by
  refine ⟨_, _, search_blocked (suffixed_injective _) n.used n.nextId, ?_, ?_⟩
  all_goals
    unfold generate
    rw [hmode]
    simp only [if_pos htaken]

/-- An optimized name has the first number with which it is free. -/
theorem generate_numbered (hmode : n.mode = .optimized) (scope slot : String) :
    ∃ others id, Search (fun id => n.lead ++ Nat.repr id ∈ n.used) n.nextId others id ∧
      (n.generate scope slot).name = n.lead ++ Nat.repr id ∧
      (n.generate scope slot).naming.nextId = id + 1 := by
  refine ⟨_, _, search_blocked (append_repr_injective n.lead) n.used n.nextId, ?_, ?_⟩
  all_goals
    unfold generate
    rw [hmode]

/-- A scope that is the only one has its own name if that is free, and the
    counter stays where it is. -/
theorem reserve_plain (hfree : name ∉ n.scopeNames) :
    n.reserve name false = (name, { n with scopeNames := name :: n.scopeNames }) := by
  unfold reserve
  rw [if_neg]
  simpa using hfree

/-- Else the first number is put behind its name with which it is free. -/
theorem reserve_suffixed {multiplex : Bool} (h : ¬ (multiplex = false ∧ name ∉ n.scopeNames)) :
    ∃ others id, Search (fun id => suffixed name id ∈ n.scopeNames) n.nextId others id ∧
      (n.reserve name multiplex).1 = suffixed name id ∧
      (n.reserve name multiplex).2.nextId = id + 1 := by
  have htaken : (multiplex || decide (name ∈ n.scopeNames)) = true := by
    cases multiplex with
    | true => rfl
    | false => simpa using h
  refine ⟨_, _, search_blocked (suffixed_injective name) n.scopeNames n.nextId, ?_, ?_⟩
  all_goals
    unfold reserve
    rw [if_pos htaken]

/-! ### Calls -/

/-- A call of naming. -/
inductive Call
  /-- A name for a slot of a scope. -/
  | generate (scope slot : String)
  /-- A name for a scope. -/
  | reserve (name : String) (multiplex : Bool)
  /-- The next number. -/
  | takeId
  /-- Optimized names with a lead from now on. -/
  | useOptimized (lead : String)
  /-- Readable names from now on. -/
  | useReadable
  deriving DecidableEq, Repr

namespace Call

/-- The state behind a call. -/
def perform : Call → Naming → Naming
  | generate scope slot, n => (n.generate scope slot).naming
  | reserve name multiplex, n => (n.reserve name multiplex).2
  | takeId, n => n.takeId.2
  | useOptimized lead, n => n.useOptimized lead
  | useReadable, n => n.useReadable

/-- The name that a call makes for a slot. -/
def ruleName : Call → Naming → List String
  | generate scope slot, n => [(n.generate scope slot).name]
  | _, _ => []

/-- The name that a call makes for a scope. -/
def scopeName : Call → Naming → List String
  | reserve name multiplex, n => [(n.reserve name multiplex).1]
  | _, _ => []

/-- The numbers that a call takes: all that the counter moves past. -/
def ids (call : Call) (n : Naming) : List Nat :=
  List.range' n.nextId ((call.perform n).nextId - n.nextId)

/-- The policy for names of rules that a call leaves, with the lead of optimized names. -/
def policy : Call → NamingMode × String → NamingMode × String
  | useOptimized lead, _ => (.optimized, lead)
  | useReadable, (_, lead) => (.readable, lead)
  | _, before => before

variable {call : Call}

/-- The counter never goes back. -/
theorem nextId_le_perform (call : Call) (n : Naming) : n.nextId ≤ (call.perform n).nextId := by
  cases call with
  | generate scope slot =>
    show n.nextId ≤ (n.generate scope slot).naming.nextId
    -- A name that is free takes no number; the search for one goes up from the counter.
    cases hmode : n.mode with
    | readable =>
      by_cases h : scope ++ "_" ++ slot ∈ n.used
      · obtain ⟨others, id, hsearch, -, hid⟩ := generate_suffixed hmode h
        have := hsearch.isLeast.1.1
        omega
      · rw [generate_plain hmode h]
    | optimized =>
      obtain ⟨others, id, hsearch, -, hid⟩ := generate_numbered hmode scope slot
      have := hsearch.isLeast.1.1
      omega
  | reserve name multiplex =>
    show n.nextId ≤ (n.reserve name multiplex).2.nextId
    by_cases h : multiplex = false ∧ name ∉ n.scopeNames
    · obtain ⟨rfl, hfree⟩ := h
      rw [reserve_plain hfree]
    · obtain ⟨others, id, hsearch, -, hid⟩ := reserve_suffixed h
      have := hsearch.isLeast.1.1
      omega
  | takeId => exact Nat.le_succ _
  | _ => exact le_refl _

/-- A call whose search moves the counter takes the numbers that the search tries. -/
theorem ids_of_search {taken : Nat → Prop} {others : List Nat} {id : Nat} {n : Naming}
    (h : Search taken n.nextId others id) (hid : (call.perform n).nextId = id + 1) :
    call.ids n = others ++ [id] := by
  rw [ids, hid, h.range'_eq]

/-- Only calls for another policy change it. -/
theorem policy_perform (call : Call) (n : Naming) :
    ((call.perform n).mode, (call.perform n).lead) = call.policy (n.mode, n.lead) := by
  cases call with
  | generate scope slot =>
    show ((n.generate scope slot).naming.mode, (n.generate scope slot).naming.lead) =
      (n.mode, n.lead)
    unfold Naming.generate
    cases hmode : n.mode with
    | readable => by_cases h : scope ++ "_" ++ slot ∈ n.used <;> simp [h]
    | optimized => rfl
  | reserve name multiplex =>
    show ((n.reserve name multiplex).2.mode, (n.reserve name multiplex).2.lead) = (n.mode, n.lead)
    unfold Naming.reserve
    split <;> rfl
  | _ => rfl

end Call

/-! ### Lists of calls -/

/-- The state behind calls, one after the other. -/
def performAll (calls : List Call) (n : Naming) : Naming := calls.foldl
    (fun n call => call.perform n) n

/-- What calls hand out, one after the other, when each hands out what is given for it. -/
def collect {α : Type} (given : Call → Naming → List α) : List Call → Naming → List α
  | [], _ => []
  | call :: rest, n => given call n ++ collect given rest (call.perform n)

/-- The names that calls make for slots. -/
def ruleNames : List Call → Naming → List String := collect Call.ruleName

/-- The names that calls make for scopes. -/
def scopeNamesOf : List Call → Naming → List String := collect Call.scopeName

/-- The numbers that calls take. -/
def ids : List Call → Naming → List Nat := collect Call.ids

/-- The policy that calls leave: the one that was chosen last. -/
def policyAfter (calls : List Call) (policy : NamingMode × String) : NamingMode × String :=
  calls.foldl (fun policy call => call.policy policy) policy

/-- **What every call keeps holds behind any calls.** -/
theorem performAll_keeps {P : Naming → Prop} (hstep : ∀ (call : Call) n, P n → P (call.perform n))
    (calls : List Call) (n : Naming) (h : P n) : P (performAll calls n) := by
  induction calls generalizing n with
  | nil => exact h
  | cons call rest ih => exact ih (call.perform n) (hstep call n h)

/-! ### Names that are handed out once -/

/-- **The state knows what is handed out,** and it is new when it is. -/
structure Registers (given : Call → Naming → List String)
    (known : Naming → List String) : Prop where
  known_perform (call : Call) (n : Naming) :
    known (call.perform n) = (given call n).reverse ++ known n
  nodup (call : Call) (n : Naming) : (given call n).Nodup
  fresh (call : Call) (n : Naming) : ∀ name ∈ given call n, name ∉ known n

/-- The state knows the names that were made for slots. -/
theorem registers_used : Registers Call.ruleName used where
  known_perform call n := by
    cases call with
    | generate scope slot => exact generate_used n scope slot
    | reserve name multiplex => exact reserve_used name multiplex n
    | _ => rfl
  nodup call n := by cases call <;> simp [Call.ruleName]
  fresh call n := by
    cases call with
    | generate scope slot => simpa [Call.ruleName] using generate_fresh n scope slot
    | _ => exact nofun

/-- It knows those that were made for scopes. -/
theorem registers_scopeNames : Registers Call.scopeName scopeNames where
  known_perform call n := by
    cases call with
    | generate scope slot => exact generate_scopeNames n scope slot
    | reserve name multiplex => exact reserve_scopeNames name multiplex n
    | _ => rfl
  nodup call n := by cases call <;> simp [Call.scopeName]
  fresh call n := by
    cases call with
    | reserve name multiplex => simpa [Call.scopeName] using reserve_fresh name multiplex n
    | _ => exact nofun

namespace Registers

variable {given : Call → Naming → List String} {known : Naming → List String} {start : Naming}

/-- What calls have made is known afterwards. -/
theorem known_performAll (h : Registers given known) (calls : List Call) (n : Naming) :
    known (performAll calls n) = (collect given calls n).reverse ++ known n := by
  induction calls generalizing n with
  | nil => rfl
  | cons call rest ih =>
    show known (performAll rest (call.perform n)) = _
    rw [ih, h.known_perform, collect, List.reverse_append, List.append_assoc]

/-- What the state knows stays free of duplicates. -/
theorem nodup_known (h : Registers given known) (calls : List Call) (hstart : (known start).Nodup) :
    (known (performAll calls start)).Nodup := by
  refine performAll_keeps (P := fun n => (known n).Nodup) (fun call n hn => ?_) calls start hstart
  rw [h.known_perform, List.nodup_append']
  exact ⟨List.nodup_reverse.mpr (h.nodup call n), hn, fun name hname =>
    h.fresh call n name (List.mem_reverse.mp hname)⟩

/-- From a state that knows nothing, nothing is handed out twice. -/
theorem nodup_given (h : Registers given known) (calls : List Call) (hstart : known start = []) :
    (collect given calls start).Nodup := by
  have hnodup := h.nodup_known calls (hstart ▸ List.nodup_nil)
  rw [h.known_performAll, hstart, List.append_nil] at hnodup
  exact List.nodup_reverse.mp hnodup

/-- Behind the calls it knows just what they have handed out. -/
theorem mem_given (h : Registers given known) (calls : List Call) (hstart : known start = [])
    (name : String) : name ∈ collect given calls start ↔ name ∈ known (performAll calls start) := by
  rw [h.known_performAll, hstart, List.append_nil, List.mem_reverse]

end Registers

/-! ### The counter and the policy -/

/-- Nor does it across several calls. -/
theorem nextId_le_performAll (calls : List Call) (n : Naming) :
    n.nextId ≤ (performAll calls n).nextId :=
  performAll_keeps (P := fun n' => n.nextId ≤ n'.nextId)
    (fun call n' h => h.trans (call.nextId_le_perform n')) calls n (le_refl _)

/-- The numbers that were taken are those that the counter moved past, each of them once. -/
theorem ids_eq (calls : List Call) (n : Naming) :
    ids calls n = List.range' n.nextId ((performAll calls n).nextId - n.nextId) := by
  induction calls generalizing n with
  | nil => simp [ids, collect, performAll]
  | cons call rest ih =>
    have hcall := call.nextId_le_perform n
    have hrest := nextId_le_performAll rest (call.perform n)
    show call.ids n ++ ids rest (call.perform n) =
      List.range' n.nextId ((performAll rest (call.perform n)).nextId - n.nextId)
    -- The later calls start where the first one has left the counter.
    calc call.ids n ++ ids rest (call.perform n)
        = List.range' n.nextId ((call.perform n).nextId - n.nextId) ++
            List.range' (n.nextId + ((call.perform n).nextId - n.nextId))
              ((performAll rest (call.perform n)).nextId - (call.perform n).nextId) := by
          rw [ih, Call.ids, Nat.add_sub_cancel' hcall]
      _ = List.range' n.nextId ((performAll rest (call.perform n)).nextId - n.nextId) := by
          rw [List.range'_append_1]
          congr 1
          omega

/-- The policy is the one that was chosen last. -/
theorem policy_performAll (calls : List Call) (n : Naming) :
    ((performAll calls n).mode, (performAll calls n).lead) = policyAfter calls
    (n.mode, n.lead) := by
  induction calls generalizing n with
  | nil => rfl
  | cons call rest ih =>
    show ((performAll rest (call.perform n)).mode, (performAll rest (call.perform n)).lead) = _
    rw [ih, call.policy_perform]
    rfl

/-! ### What a call hands out behind others -/

/-- **A name for a slot, behind any other calls.** No call before has made the name. A readable name
    is scope and slot, joined, and leaves the counter where it is, exactly if that was not handed
    out before. Else the search for a number ends, and the name has the first one with which it is
    free. So has an optimized name, behind the lead that was chosen last. -/
theorem generate_called (config : NamingConfig) (calls : List Call) (scope slot : String) :
    let n := performAll calls (ofConfig config)
    let given := ruleNames calls (ofConfig config)
    let policy := policyAfter calls (config.mode, config.lead)
    let plain := scope ++ "_" ++ slot
    let made := n.generate scope slot
    given.Nodup ∧ made.name ∉ given ∧
    (policy.1 = .readable →
      (made.name = plain ↔ plain ∉ given) ∧ (made.naming.nextId = n.nextId ↔ plain ∉ given) ∧
      (plain ∈ given → ∃ others id,
        Search (fun id => suffixed plain id ∈ given) n.nextId others id ∧
        made.name = suffixed plain id ∧ (Call.generate scope slot).ids n = others ++ [id])) ∧
    (policy.1 = .optimized →
      ∃ others id, Search (fun id => policy.2 ++ Nat.repr id ∈ given) n.nextId others id ∧
        IsLeast {id | n.nextId ≤ id ∧ policy.2 ++ Nat.repr id ∉ given} id ∧
        made.name = policy.2 ++ Nat.repr id ∧ (Call.generate scope slot).ids n = others ++ [id]) :=
        by
  intro n given policy plain made
  have hmem : ∀ name, name ∈ given ↔ name ∈ n.used := registers_used.mem_given calls rfl
  have hpolicy : (n.mode, n.lead) = policy := policy_performAll calls (ofConfig config)
  simp only [hmem]
  refine ⟨registers_used.nodup_given calls rfl, generate_fresh n scope slot, fun hmode => ?_,
    fun hmode => ?_⟩
  -- A readable name is the plain one, if that is free, and has a number behind it otherwise.
  · have hmode : n.mode = .readable := (congrArg Prod.fst hpolicy).trans hmode
    by_cases htaken : plain ∈ n.used
    · obtain ⟨others, id, hsearch, hname, hid⟩ := generate_suffixed hmode htaken
      have hle : n.nextId ≤ id := hsearch.isLeast.1.1
      refine ⟨iff_of_false ?_ (not_not_intro htaken),
        iff_of_false ?_ (not_not_intro htaken), fun _ =>
        ⟨others, id, hsearch, hname, Call.ids_of_search hsearch hid⟩⟩
      · rw [hname]
        exact suffixed_ne plain id
      · rw [hid]
        omega
    · have hplain := generate_plain hmode htaken
      refine ⟨iff_of_true ?_ htaken, iff_of_true ?_ htaken, fun h => absurd h htaken⟩
      · show (n.generate scope slot).name = plain
        rw [hplain]
      · show (n.generate scope slot).naming.nextId = n.nextId
        rw [hplain]
  -- An optimized name always has a number, with the lead of the last policy.
  · have hmode : n.mode = .optimized := (congrArg Prod.fst hpolicy).trans hmode
    obtain ⟨others, id, hsearch, hname, hid⟩ := generate_numbered hmode scope slot
    have hlead : n.lead = policy.2 := congrArg Prod.snd hpolicy
    rw [hlead] at hsearch hname
    exact ⟨others, id, hsearch, hsearch.isLeast, hname, Call.ids_of_search hsearch hid⟩

/-- Names with different leads may coincide as texts: the number 11 is passed over. -/
example : ruleNames ([.useOptimized "n1", .generate "App" "a", .useOptimized "n"] ++
    List.replicate 9 .takeId ++ [.generate "App" "b"]) initial = ["n11", "n12"] := by
  decide +kernel

/-- **A name for a scope, behind any other calls.** No call before has made the name. It is the
    scope's own one exactly if the scope is not one of many and no call has made that name before.
    Else the search for a number ends, and the name has the first one with which it is free,
    which no call has taken. -/
theorem reserve_called (config : NamingConfig) (calls : List Call) (name : String)
    (multiplex : Bool) :
    let n := performAll calls (ofConfig config)
    let given := scopeNamesOf calls (ofConfig config)
    let reserved := (n.reserve name multiplex).1
    given.Nodup ∧ reserved ∉ given ∧ (reserved = name ↔ multiplex = false ∧ name ∉ given) ∧
    (¬ (multiplex = false ∧ name ∉ given) →
      ∃ others id, Search (fun id => suffixed name id ∈ given) n.nextId others id ∧
        reserved = suffixed name id ∧ id ∉ ids calls (ofConfig config) ∧
        (Call.reserve name multiplex).ids n = others ++ [id]) := by
  intro n given reserved
  have hmem : ∀ name, name ∈ given ↔ name ∈ n.scopeNames := registers_scopeNames.mem_given calls rfl
  simp only [hmem]
  refine ⟨registers_scopeNames.nodup_given calls rfl, reserve_fresh name multiplex n, ?_⟩
  -- The name itself is taken if the scope is the only one and the name is free.
  by_cases h : multiplex = false ∧ name ∉ n.scopeNames
  · refine ⟨iff_of_true ?_ h, fun hnot => absurd h hnot⟩
    obtain ⟨rfl, hfree⟩ := h
    show (n.reserve name false).1 = name
    rw [reserve_plain hfree]
  · obtain ⟨others, id, hsearch, hname, hid⟩ := reserve_suffixed h
    have hle : n.nextId ≤ id := hsearch.isLeast.1.1
    refine ⟨iff_of_false ?_ h, fun _ =>
      ⟨others, id, hsearch, hname, ?_, Call.ids_of_search hsearch hid⟩⟩
    · show (n.reserve name multiplex).1 ≠ name
      rw [hname]
      exact suffixed_ne name id
    · -- All numbers that were taken are below the counter.
      rw [ids_eq, List.mem_range'_1]
      intro ⟨_, hlt⟩
      have hstart : (ofConfig config).nextId ≤ n.nextId := nextId_le_performAll calls _
      rw [show (performAll calls (ofConfig config)).nextId = n.nextId from rfl] at hlt
      omega

/-- A name with a number may be the own name of another scope. -/
example : scopeNamesOf [.reserve "Card" false, .reserve "Card" false, .reserve "Card_1" false,
    .reserve "Row" true] initial = ["Card", "Card_1", "Card_1_2", "Row_3"] := by
  decide +kernel

end Naming

end StyleBook
