import StyleBook.Proofs.Sink.Sinks
import StyleBook.Proofs.Sink.Users

namespace StyleBook

/-!
# Journals

A journal is what a sink took, in blocks of one scope each. Both sinks hold a journal whose scopes
differ, each in its own way: one has all texts in a row, the other one a sheet for each block that
has texts.

* `Journal.entries`, `Journal.written`, `Journal.without` — its texts in a row, its blocks that
  have texts, and the journal without some scopes;
* `TextSink.rules_insertInto`, `SheetSink.sheets_insertInto` — what sinks do with blocks;
* `Engine.Inserts.keys`, `Engine.Releases.keys` — blocks come in for the scopes that become active,
  and go for those that were active.
-/

/-! ### Blocks -/

namespace Journal

/-- The texts one by one, each with its scope. -/
def entries (journal : Journal) : List (ScopeId × String) :=
  journal.flatMap fun block => block.2.map (Prod.mk block.1)

/-- The texts of two journals follow one another. -/
theorem entries_append (journal more : Journal) :
    entries (journal ++ more) = entries journal ++ entries more := List.flatMap_append

/-- The texts of a first block come first. -/
theorem entries_cons (block : ScopeId × List String) (journal : Journal) :
    entries (block :: journal) = block.2.map (Prod.mk block.1) ++ entries journal :=
  List.flatMap_cons

/-- The journal without some scopes. -/
def without (cleared : List ScopeId) (journal : Journal) : Journal :=
  journal.filter fun block => block.1 ∉ cleared

/-- The scopes that are left are those that are not cleared. -/
theorem keys_without (cleared : List ScopeId) (journal : Journal) :
    Dict.keys (without cleared journal) = (Dict.keys journal).filter (· ∉ cleared) := by
  unfold without Dict.keys
  rw [List.filter_map]
  rfl

/-- A scope with texts has a block. -/
theorem mem_of_mem_entries {k : ScopeId} {text : String} {journal : Journal}
    (h : (k, text) ∈ entries journal) : k ∈ Dict.keys journal := by
  obtain ⟨block, hmem, htext⟩ := List.mem_flatMap.mp h
  obtain ⟨_, -, heq⟩ := List.mem_map.mp htext
  have hk : block.1 = k := (Prod.ext_iff.mp heq).1
  exact hk ▸ List.mem_map_of_mem hmem

/-- Texts leave with their block. -/
theorem entries_without (cleared : List ScopeId) (journal : Journal) :
    entries (without cleared journal) =
      (entries journal).filter fun entry => entry.1 ∉ cleared := by
  induction journal with
  | nil => rfl
  | cons block rest ih =>
    obtain ⟨k, texts⟩ := block
    rw [entries_cons, List.filter_append, ← ih]
    unfold without
    -- A block goes as a whole or stays as a whole, since all of its texts are of one scope.
    by_cases hk : k ∈ cleared
    · have hgone : (texts.map (Prod.mk k)).filter (fun entry => entry.1 ∉ cleared) = [] := by
        rw [List.filter_eq_nil_iff]
        intro entry hmem
        obtain ⟨text, -, rfl⟩ := List.mem_map.mp hmem
        simpa using hk
      rw [List.filter_cons_of_neg (by simpa using hk), hgone, List.nil_append]
    · have hkept : (texts.map (Prod.mk k)).filter (fun entry => entry.1 ∉ cleared) =
          texts.map (Prod.mk k) := by
        rw [List.filter_eq_self]
        intro entry hmem
        obtain ⟨text, -, rfl⟩ := List.mem_map.mp hmem
        simpa using hk
      rw [List.filter_cons_of_pos (by simpa using hk), hkept, entries_cons]

/-- The texts of one scope are those of its block. -/
theorem entries_of_key {journal : Journal} (h : (Dict.keys journal).Nodup) (k : ScopeId) :
    ((entries journal).filter (·.1 = k)).map Prod.snd = (Dict.get? k journal).getD [] := by
  induction journal with
  | nil => rfl
  | cons block rest ih =>
    obtain ⟨j, texts⟩ := block
    rw [Dict.keys_cons, List.nodup_cons] at h
    rw [entries_cons, List.filter_append, List.map_append, ih h.2, Dict.get?]
    -- No other block is of this scope, so its texts are those of the block.
    by_cases hj : j = k
    · subst hj
      have hall : (texts.map (Prod.mk j)).filter (·.1 = j) = texts.map (Prod.mk j) := by
        rw [List.filter_eq_self]
        intro entry hmem
        obtain ⟨text, -, rfl⟩ := List.mem_map.mp hmem
        simp
      have hrest : Dict.get? j rest = none := Dict.get?_eq_none_iff.mpr h.1
      rw [hall, hrest, if_pos rfl, List.map_map]
      simp
    · have hnone : (texts.map (Prod.mk j)).filter (·.1 = k) = [] := by
        rw [List.filter_eq_nil_iff]
        intro entry hmem
        obtain ⟨text, -, rfl⟩ := List.mem_map.mp hmem
        simpa using hj
      rw [hnone, if_neg hj]
      rfl

/-- The blocks that have texts. -/
def written (journal : Journal) : Journal := journal.filter fun block => block.2 ≠ []

/-- Blocks without texts add none. -/
theorem values_written (journal : Journal) :
    (Dict.values (written journal)).flatten = (entries journal).map Prod.snd := by
  induction journal with
  | nil => rfl
  | cons block rest ih =>
    obtain ⟨k, texts⟩ := block
    have htexts : (texts.map (Prod.mk k)).map Prod.snd = texts := by
      rw [List.map_map]
      exact List.map_id texts
    rw [entries_cons, List.map_append, ← ih, htexts]
    unfold written
    by_cases hnil : texts = []
    · rw [List.filter_cons_of_neg (by simpa using hnil), hnil, List.nil_append]
    · rw [List.filter_cons_of_pos (by simpa using hnil)]
      rfl

/-- Blocks with texts of two journals follow one another. -/
theorem written_append (journal more : Journal) :
    written (journal ++ more) = written journal ++ written more := List.filter_append _ _

/-- A block with texts is a block. -/
theorem keys_written_subset {k : ScopeId} {journal : Journal}
    (h : k ∈ Dict.keys (written journal)) : k ∈ Dict.keys journal :=
  (List.filter_sublist.map Prod.fst).subset h

/-- A scope without a block, and one whose block has no texts, have no texts. -/
theorem get?_written {journal : Journal} (h : (Dict.keys journal).Nodup) (k : ScopeId) :
    (Dict.get? k (written journal)).getD [] = (Dict.get? k journal).getD [] := by
  induction journal with
  | nil => rfl
  | cons block rest ih =>
    obtain ⟨j, texts⟩ := block
    rw [Dict.keys_cons, List.nodup_cons] at h
    have hrest := ih h.2
    unfold written at hrest ⊢
    -- Only a block without texts is left out, which has nothing to find.
    by_cases hnil : texts = []
    · rw [List.filter_cons_of_neg (by simpa using hnil), hrest, Dict.get?]
      by_cases hj : j = k
      · subst hj
        have hnone : Dict.get? j rest = none := Dict.get?_eq_none_iff.mpr h.1
        rw [hnone, if_pos rfl, hnil]
        rfl
      · rw [if_neg hj]
    · rw [List.filter_cons_of_pos (by simpa using hnil), Dict.get?, Dict.get?]
      by_cases hj : j = k
      · rw [if_pos hj, if_pos hj]
      · rw [if_neg hj, if_neg hj]
        exact hrest

end Journal

/-! ### What sinks do with blocks -/

/-- Inserting blocks appends their texts. -/
theorem TextSink.rules_insertInto (blocks : Journal) (sink : TextSink) :
    (Journal.insertInto blocks sink).rules = sink.rules ++ blocks.entries := by
  induction blocks generalizing sink with
  | nil => exact (List.append_nil _).symm
  | cons block rest ih =>
    rw [Journal.insertInto_cons, ih, TextSink.rules_insertAll, Journal.entries_cons,
      List.append_assoc]

/-- Removing scopes leaves the texts of all others. -/
theorem TextSink.rules_removeEach (cleared : List ScopeId) (sink : TextSink) :
    (Sink.removeEach cleared sink).rules =
      sink.rules.filter fun entry => entry.1 ∉ cleared := by
  induction cleared generalizing sink with
  | nil =>
    show sink.rules = _
    simp
  | cons id rest ih =>
    show (Sink.removeEach rest (Sink.remove id sink)).rules = _
    rw [ih, TextSink.rules_remove, List.filter_filter]
    refine List.filter_congr fun entry _ => ?_
    by_cases hid : entry.1 = id <;> simp [hid]

/-- Removing scopes leaves the sheets of all others. -/
theorem SheetSink.sheets_removeEach (cleared : List ScopeId) (sink : SheetSink) :
    (Sink.removeEach cleared sink).sheets = Journal.without cleared sink.sheets := by
  induction cleared generalizing sink with
  | nil =>
    show sink.sheets = _
    unfold Journal.without
    simp
  | cons id rest ih =>
    show (Sink.removeEach rest (Sink.remove id sink)).sheets = _
    rw [ih, SheetSink.sheets_remove]
    unfold Journal.without
    rw [List.filter_filter]
    refine List.filter_congr fun entry _ => ?_
    by_cases hid : entry.1 = id <;> simp [hid]

/-- Blocks of new scopes go to the end, if they have texts. -/
theorem SheetSink.sheets_insertInto (blocks : Journal) (sink : SheetSink)
    (hnodup : (Dict.keys blocks).Nodup)
    (hnew : ∀ k ∈ Dict.keys blocks, k ∉ sink.sheets.keys) :
    (Journal.insertInto blocks sink).sheets = sink.sheets ++ blocks.written := by
  induction blocks generalizing sink with
  | nil => exact (List.append_nil _).symm
  | cons block rest ih =>
    obtain ⟨k, texts⟩ := block
    rw [Dict.keys_cons, List.nodup_cons] at hnodup
    have hk : k ∉ sink.sheets.keys := hnew k (by simp)
    -- The scope has no sheet so far, so its texts begin a new one at the end.
    have hsheets := SheetSink.sheets_insertAll k texts sink hk
    rw [Journal.insertInto_cons,
      ih (Sink.insertAll k texts sink) hnodup.2 fun j hj hmem => ?_, hsheets]
    · unfold Journal.written
      by_cases hnil : texts = []
      · rw [if_pos hnil, List.filter_cons_of_neg (by simpa using hnil)]
      · rw [if_neg hnil, List.filter_cons_of_pos (by simpa using hnil), List.append_assoc]
        rfl
    · -- The scopes of the other blocks are neither in the sink nor the one that was inserted.
      have hother : j ∉ sink.sheets.keys := hnew j (List.mem_cons_of_mem _ hj)
      rw [hsheets] at hmem
      split at hmem
      · exact hother hmem
      · unfold Dict.keys at hmem hother
        rw [List.map_append, List.mem_append] at hmem
        rcases hmem with hmem | hmem
        · exact hother hmem
        · rw [List.map_singleton, List.mem_singleton] at hmem
          exact hnodup.1 (hmem ▸ hj)

/-- Two sinks that are lawful are lawful together. -/
theorem Sink.Lawful.prod {σ τ : Type} [Sink σ] [Sink τ] {holds : σ → ScopeId → Prop}
    {holds' : τ → ScopeId → Prop} (h : Sink.Lawful holds) (h' : Sink.Lawful holds') :
    Sink.Lawful fun (sinks : σ × τ) k => holds sinks.1 k ∨ holds' sinks.2 k where
  remove_insertAll {sinks id texts} hnone := by
    refine Prod.ext ?_ ?_
    · show Sink.remove id (Sink.insertAll id texts sinks).1 = sinks.1
      rw [Sink.hom_fst.insertAll]
      exact h.remove_insertAll fun hheld => hnone (.inl hheld)
    · show Sink.remove id (Sink.insertAll id texts sinks).2 = sinks.2
      rw [Sink.hom_snd.insertAll]
      exact h'.remove_insertAll fun hheld => hnone (.inr hheld)
  holds_insertAll {sinks id texts k} hheld := by
    rw [Sink.hom_fst.insertAll, Sink.hom_snd.insertAll] at hheld
    rcases hheld with hheld | hheld
    · exact (h.holds_insertAll hheld).imp_right .inl
    · exact (h'.holds_insertAll hheld).imp_right .inr

/-- Inserting blocks goes along with what preserves insertions and removals. -/
theorem Sink.Hom.insertInto {σ τ : Type} [Sink σ] [Sink τ] {f : σ → τ} (hf : Sink.Hom f)
    (blocks : Journal) (sink : σ) :
    f (Journal.insertInto blocks sink) = Journal.insertInto blocks (f sink) := by
  induction blocks generalizing sink with
  | nil => rfl
  | cons block rest ih =>
    rw [Journal.insertInto_cons, Journal.insertInto_cons, ih, hf.insertAll]

/-- Removing scopes goes along with it too. -/
theorem Sink.Hom.removeEach {σ τ : Type} [Sink σ] [Sink τ] {f : σ → τ} (hf : Sink.Hom f)
    (cleared : List ScopeId) (sink : σ) :
    f (Sink.removeEach cleared sink) = Sink.removeEach cleared (f sink) := by
  induction cleared generalizing sink with
  | nil => rfl
  | cons id rest ih =>
    show f (Sink.removeEach rest (Sink.remove id sink)) = _
    rw [ih, hf.remove]
    rfl

/-! ### Which scopes come and go -/

namespace Engine

variable {e e' : Engine} {ids cleared : List ScopeId} {blocks : Journal} {rank : ScopeId → Nat}

/-- **Blocks are inserted for the scopes that become active,** one for each. -/
theorem Inserts.keys (h : Inserts e ids blocks e') (hr : Ranked rank e) :
    (Dict.keys blocks).Nodup ∧ ∀ k, e.usersOf k ≤ e'.usersOf k ∧
      (k ∈ Dict.keys blocks ↔ e.usersOf k = 0 ∧ 0 < e'.usersOf k) := by
  induction h with
  | nil => exact ⟨List.nodup_nil, fun k => ⟨le_rfl, by simp⟩⟩
  | @shared e e' id ids blocks s users hs hu _ ih =>
    have hstep := (Inserts.shared hs hu .nil).reused
    obtain ⟨hnodup, hkeys⟩ := ih (hr.rescoped hstep)
    refine ⟨hnodup, fun k => ?_⟩
    obtain ⟨hle, hiff⟩ := hkeys k
    have husers : ((e.setUsers id (users + 2)).report (.alreadyActive s.name (users + 2))).usersOf
      k =
        if k = id then users + 2 else e.usersOf k := usersOf_modifyScope hs
    rw [hiff]
    rw [husers] at hle ⊢
    by_cases hk : k = id
    · subst hk
      rw [if_pos rfl] at hle ⊢
      rw [usersOf_eq hs, hu]
      omega
    · rw [if_neg hk] at hle ⊢
      omega
  | @first e e₁ e' id ids inner blocks s texts ambient hs hu ht hrefs _ ihr ih =>
    have hambient : Rescoped (fun _ => Scope.Reused True) e { e with ambient } :=
      .of_scopes_eq rfl rfl rfl
    have hr₁ := (hr.rescoped hambient).rescoped hrefs.reused
    obtain ⟨t, ht', -⟩ := (hambient.trans hrefs.reused).scope hs
    have hzero : e.usersOf id = 0 := (usersOf_eq hs).trans hu
    -- The references rank below the scope, which has no users when they are active.
    have hzero₁ : e₁.usersOf id = 0 :=
      (hrefs.usersOf_of_lt (hr.rescoped hambient) fun r hrm => (hr.reference hs hrm).1).trans hzero
    have hmark : ∀ k, (e₁.markInserted id s).usersOf k = if k = id then 1 else e₁.usersOf k :=
      fun k => usersOf_modifyScope ht'
    have hmarked : Rescoped (fun _ => Scope.Reused True) e₁ (e₁.markInserted id s) :=
      (Rescoped.modifyScope fun _ _ => .insert trivial Nat.one_pos).trans (.report _)
    obtain ⟨hinner, hikeys⟩ := ihr (hr.rescoped hambient)
    obtain ⟨hblocks, hbkeys⟩ := ih (hr₁.rescoped hmarked)
    have hsplit : Dict.keys (inner ++ (id, texts) :: blocks) =
        Dict.keys inner ++ id :: Dict.keys blocks := List.map_append
    have hid : id ∉ Dict.keys inner := fun hm => by
      have := ((hikeys id).2.mp hm).2
      omega
    have hlater : ∀ k ∈ Dict.keys blocks, k ≠ id ∧ e₁.usersOf k = 0 := by
      intro k hk
      have := ((hbkeys k).2.mp hk).1
      rw [hmark] at this
      split at this
      · cases this
      · exact ⟨‹_›, this⟩
    refine ⟨?_, fun k => ?_⟩
    · rw [hsplit, List.nodup_append, List.nodup_cons]
      refine ⟨hinner, ⟨fun hm => (hlater id hm).1 rfl, hblocks⟩, fun k hk j hj hkj => ?_⟩
      rcases List.mem_cons.mp hj with rfl | hj
      · exact hid (hkj ▸ hk)
      · have := (hlater j hj).2
        have := ((hikeys k).2.mp hk).2
        subst hkj
        omega
    · obtain ⟨hle, hiff⟩ := hikeys k
      obtain ⟨hle', hiff'⟩ := hbkeys k
      change e.usersOf k ≤ _ at hle
      change _ ↔ e.usersOf k = 0 ∧ _ at hiff
      rw [hmark] at hle' hiff'
      rw [hsplit, List.mem_append, List.mem_cons, hiff, hiff']
      by_cases hk : k = id
      · subst hk
        rw [if_pos rfl] at hle'
        simp only [true_or, or_true, true_iff]
        omega
      · rw [if_neg hk] at hle' ⊢
        simp only [hk, false_or]
        omega

/-- **The scopes that are cleared are those that were active.** -/
theorem Releases.keys (h : Releases e ids cleared e') (k : ScopeId) :
    e'.usersOf k ≤ e.usersOf k ∧ (k ∈ cleared ↔ 0 < e.usersOf k ∧ e'.usersOf k = 0) := by
  -- Each release is one of a scope that is idle, has other users, or loses its last one; only the
  -- last one clears, and goes on to references.
  induction h with
  | nil => exact ⟨le_rfl, by simp; omega⟩
  | idle hs hu _ ih => exact ih
  | @shared e e' id ids cleared s users hs hu _ ih =>
    obtain ⟨hle, hiff⟩ := ih
    have husers : ((e.setUsers id (users + 1)).report (.stillInUse s.name (users + 1))).usersOf k =
        if k = id then users + 1 else e.usersOf k := usersOf_modifyScope hs
    rw [hiff]
    rw [husers] at hle ⊢
    -- Of the scope itself one user is left at least, so it is not among the cleared ones yet.
    by_cases hk : k = id
    · subst hk
      rw [if_pos rfl] at hle ⊢
      rw [usersOf_eq hs, hu]
      omega
    · rw [if_neg hk] at hle ⊢
      omega
  | @last e e₁ e' id ids inner cleared s hs hu _ _ ihr ih =>
    obtain ⟨hle, hiff⟩ := ihr
    obtain ⟨hle', hiff'⟩ := ih
    have husers : (e.clear id s).usersOf k = if k = id then 0 else e.usersOf k :=
      usersOf_modifyScope hs
    rw [husers] at hle hiff
    rw [List.cons_append, List.mem_cons, List.mem_append, hiff, hiff']
    -- The scope is cleared here, and has no users afterwards, whatever follows.
    by_cases hk : k = id
    · subst hk
      rw [if_pos rfl] at hle
      rw [usersOf_eq hs, hu]
      simp only [true_or, true_iff]
      omega
    · rw [if_neg hk] at hle ⊢
      simp only [hk, false_or]
      omega

end Engine

end StyleBook
