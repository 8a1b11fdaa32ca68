import StyleBook.Proofs.Name.PlainNames
import StyleBook.Proofs.Order.Lockstep
import StyleBook.Proofs.Rule.Stylesets
import StyleBook.Proofs.Script.Flawless
import StyleBook.Proofs.Text.AlikeTexts
import StyleBook.Proofs.Text.NestedTexts

namespace StyleBook

/-!
# Definitions in any order

A program has the definitions of a family processed one after the other. The order decides which
call gives a shared definition its scope, which numbers scopes and places of names get, and what is
reserved and merged first. None of this reaches the text.

* `Ordered` — definitions are processed in an order, and `Ordered.induct` — what
  that comes to, call by call;
* `Ordered.matched` — scopes of one definition match in two orders;
* `Ordered.texts_agree` — they have the same text.
-/

open Engine

variable {μ : Type} {library : Library μ} {keys : Nat → Prop} {limit key : Nat}
    {start s s' : Engine × μ}
  {e F G : Engine} {k j : ScopeId} {order order' : List Nat} {units : UnitTable}

/-! ### Calls -/

namespace Flawless

/-- **The definition is reached,** and the engine rests again. -/
theorem proceeds (hcircle : Circle library keys) (hf : Flawless library limit key s)
    (hkey : keys key)
    (hr : s.1.Rests) {r : Except Error ScopeId} (h : process library limit key s = some (r, s')) :
    ∃ id, r = .ok id ∧ Proceeds library (.reach key id) s s' ∧ s'.1.Rests := by
  obtain ⟨id, rfl⟩ := hf.answers hr h
  have hreach : Proceeds library (.reach key id) s s' :=
    process_proceeds (fun hnew hkey q hq => (hf _ (.process hnew hkey) q hq).1) h
  exact ⟨id, rfl, hreach, (hreach.secluded hcircle hkey hr.orderly).orderly,
    (hreach.reach_stepwise constructing_stepwise hr.orderly.sound).trans hr.idle⟩

end Flawless

/-- **Definitions are processed in this order,** and nothing fails. -/
inductive Ordered (library : Library μ) (keys : Nat → Prop) (start : Engine × μ) :
    List Nat → Engine × μ → Prop
  /-- Nothing is processed. -/
  | start : Ordered library keys start [] start
  /-- One more definition. -/
  | call {order s limit key r s'} (before : Ordered library keys start order s) (hkey : keys key)
    (flawless : Flawless library limit key s) (h : process library limit key s = some (r, s')) :
    Ordered library keys start (order ++ [key]) s'

namespace Ordered

section Circle

variable (hcircle : Circle library keys)
include hcircle

/-- **Call by call:** a definition is reached, and the engine rests again. -/
theorem induct (hstart : start.1.Rests) {P : List Nat → Engine × μ → Prop} (hnone : P [] start)
    (hcall : ∀ {order s key id s'}, Ordered library keys start order s → P order s →
      s.1.Rests → keys key →
      Proceeds library (.reach key id) s s' → P (order ++ [key]) s')
    (h : Ordered library keys start order s) : P order s ∧ s.1.Rests := by
  induction h with
  | start => exact ⟨hnone, hstart⟩
  | call before hkey flawless h ih =>
    obtain ⟨hP, hrests⟩ := ih
    obtain ⟨id, -, hreach, hrests'⟩ := flawless.proceeds hcircle hkey hrests h
    exact ⟨hcall before hP hrests hkey hreach, hrests'⟩

/-- No definition declares between two calls. -/
theorem rests (hstart : start.1.Rests) (h : Ordered library keys start order s) : s.1.Rests :=
  (h.induct hcircle (P := fun _ _ => True) hstart trivial fun _ _ _ _ _ => trivial).2

/-- What was found at the start is found there later. -/
theorem grows (hstart : start.1.Rests) (h : Ordered library keys start order s) :
    Grows start.1 s.1 :=
  (h.induct hcircle (P := fun _ s => Grows start.1 s.1) hstart (refl_of Grows _)
    fun _ hgrows hr hkey hreach =>
      trans_of Grows hgrows (hreach.secluded hcircle hkey hr.orderly).grows).1

/-- **The scopes of definitions came about since the start,** if no scope was processed there, and
    processed scopes mention processed ones only. -/
theorem recorded (hstart : start.1.Rests) (hnone : ∀ k, ¬ start.1.Settles k)
    (h : Ordered library keys start order s) :
    Mentions units s.1.Settles s.1.Settles s.1 ∧ Recorded library keys start.1 units s.1 := by
  refine (h.induct hcircle (P := fun _ s => Mentions units s.1.Settles s.1.Settles s.1 ∧
    Recorded library keys start.1 units s.1) hstart ⟨⟨fun hk => absurd hk (hnone _)⟩,
      refl_of Ages _, fun _ hsettled => absurd hsettled (hnone _)⟩ ?_).1
  intro order s key id s' before ⟨hmentions, hrecorded⟩ hr hkey hreach
  obtain ⟨hmentions', hadds⟩ := hreach.adds hcircle hkey hr.orderly hmentions
  exact ⟨hmentions', hadds.recorded hrecorded⟩

end Circle

variable (hfamily : Family library keys)
include hfamily

/-- The definitions that were processed have scopes. -/
theorem entries (hstart : start.1.Rests) (h : Ordered library keys start order s) :
    ∀ key ∈ order, ∃ id, s.1.scopeOf? key = some id := by
  refine (h.induct hfamily.toCircle (P := fun order s => ∀ key ∈ order, ∃ id,
    s.1.scopeOf? key = some id) hstart nofun ?_).1
  intro order s key id s' before hentries hr hkey hreach d hd
  rcases List.mem_append.mp hd with hd | hd
  · obtain ⟨k, hk⟩ := hentries d hd
    exact ⟨k, (hreach.secluded hfamily.toCircle hkey hr.orderly).grows.entries hk⟩
  · rw [List.mem_singleton.mp hd]
    exact ⟨id, hreach.entry hfamily.toCircle hkey (hfamily.single hkey) hr.orderly⟩

/-- **No number is taken,** if the texts of names differ. -/
theorem proper (hstart : start.1.Rests) (hproper : Proper library keys start.1 start.1)
    (h : Ordered library keys start order s) (hdistinct : Distinct start.1 s.1) :
    Proper library keys start.1 s.1 := by
  have hnames : NamesProperly library keys start.1 start.1 s.1 :=
    (h.induct hfamily.toCircle (P := fun _ s => NamesProperly library keys start.1 start.1 s.1)
      hstart (.refl _)
      fun _ hnames hr hkey hreach =>
        hnames.trans (hreach.proper hfamily start.1 hkey hr.orderly.sound)).1
  exact hnames.proper hdistinct hproper

/-- **Every definition that has a scope was born,** if no number is taken. -/
theorem births (hstart : start.1.Rests) (hnone : ∀ k, ¬ start.1.Settles k)
    (h : Ordered library keys start order s) (hsteady : Steady start.1 s.1)
    (hd : s.1.scopeOf? key = some k) :
    ∃ roots t t₁ e', Birth library keys s.1 key roots t t₁ e' := by
  have hs := (h.rests hfamily.toCircle hstart).orderly.sound
  obtain ⟨u, hu, -⟩ := hs.linked.singleton_live hd
  obtain ⟨-, hrecorded⟩ : Mentions [] s.1.Settles s.1.Settles s.1 ∧
      Recorded library keys start.1 [] s.1 := h.recorded hfamily.toCircle hstart hnone
  obtain @⟨_, _, _, roots, t, t₁, e', harrived, -⟩ := hrecorded.scope hd ⟨u, hu, hs.settled hu⟩
  exact ⟨roots, t, t₁, e', harrived.toArrival, harrived.since,
    hsteady.second harrived.ages (harrived.leaves.grows.endures.trans harrived.since).ages⟩

/-- **Scopes match on the way,** if the definitions have scopes in the other engine too. -/
theorem lockstep (hstart : start.1.Rests) (hnone : ∀ k, ¬ start.1.Settles k)
    (hF : Linked F) (hG : Linked G)
    (hbirths : ∀ {d}, keys d → ∃ roots t t₁ f', Birth library keys G d roots t t₁ f')
    (h : Ordered library keys start order s) (hend : Endures s.1 F) (hsteady : Steady start.1 F)
    (htwin : Twin F G k j) (hk : s.1.Settles k) : Matched F G units k j := by
  refine (h.induct hfamily.toCircle (P := fun _ s => Endures s.1 F →
    ∀ k j, Twin F G k j → s.1.Settles k → Matched F G units k j) hstart
      (fun _ k _ _ hk => absurd hk (hnone k)) ?_).1 hend k j htwin hk
  intro order s key id s' before hmatched hr hkey hreach hend k j htwin hk
  have hbefore := (hreach.secluded hfamily.toCircle hkey hr.orderly).grows.endures.trans hend
  have hages := (before.grows hfamily.toCircle hstart).evolves.ages
  exact hreach.lockstep hfamily hF hG hbirths hkey hr.orderly hend
    (hsteady.second hages hbefore.ages)
    (fun htwin hk => hmatched hbefore _ _ htwin hk) htwin hk

end Ordered

/-! ### Where nothing was processed -/

/-- An engine in which nothing was processed, and that supports these features. -/
def Engine.blank (naming : NamingConfig) (catalog : Catalog) (supports : String → Bool)
    (ambient : Ambient) : Engine := { create naming catalog ambient with supports }

section Blank

variable {naming : NamingConfig} {catalog : Catalog} {supports : String → Bool} {ambient : Ambient}

/-- No definition declares there. -/
theorem Engine.rests_blank : (blank naming catalog supports ambient).Rests := by
  let nothing : Library Unit := fun key => ⟨key, "", "", false, .done⟩
  have hrun : Run nothing (create naming catalog ambient, ()) []
    (create naming catalog ambient, ()) := .start
  have hcreate := hrun.prepared
  have hlabelled := hrun.labelled.1
  have hbuilds : Builds anything [] (create naming catalog ambient)
      (blank naming catalog supports ambient) := .aside rfl rfl rfl
  exact ⟨⟨(Builds.sound hbuilds hcreate.sound).1,
    (inherits_create naming catalog ambient).aside rfl rfl rfl,
    hcreate.vacant.aside rfl rfl rfl rfl rfl rfl, hcreate.unnamed,
    ⟨hcreate.layered.base_ready, hcreate.layered.ranked⟩,
    ⟨hlabelled.owned, hlabelled.labelled⟩⟩, rfl⟩

/-- No scope is processed there. -/
theorem Engine.settles_blank (k : ScopeId) : ¬ (blank naming catalog supports ambient).Settles k :=
  fun ⟨_, hk, _⟩ => by cases hk

/-- No name was given there. -/
theorem Engine.proper_blank (hmode : naming.mode = .readable) :
    Proper library keys (blank naming catalog supports ambient)
    (blank naming catalog supports ambient) where
  unnamed := rests_blank.orderly.unnamed
  credits := by
    have hnone : ∀ {k s}, (blank naming catalog supports ambient).scope? k ≠ some s :=
      fun h => by cases h
    exact ⟨[], .start, fun hs => absurd hs hnone, fun hs => absurd hs hnone,
      fun hs => absurd hs hnone,
      fun hs => absurd hs hnone⟩
  registered _ hname := by cases hname
  plain := ⟨refl_of Ages _, hmode, rfl, fun hname => by cases hname⟩

/-! ### In two orders -/

variable {memory memory' : μ}

namespace Ordered

/-- **No number is taken,** if the texts of names differ. -/
theorem steady (hfamily : Family library keys) (hmode : naming.mode = .readable)
    (h : Ordered library keys (blank naming catalog supports ambient, memory) order s)
    (hdistinct : Distinct (blank naming catalog supports ambient) s.1) :
    Steady (blank naming catalog supports ambient) s.1 :=
  ⟨hmode, (h.proper hfamily rests_blank (proper_blank hmode) hdistinct).plain.nextId⟩

/-- **Scopes of one definition match in two orders,** and so do the scopes nested in them. -/
theorem matched (hfamily : Family library keys) (hmode : naming.mode = .readable)
    (h : Ordered library keys (blank naming catalog supports ambient, memory) order s)
    (h' : Ordered library keys (blank naming catalog supports ambient, memory') order' s')
    (hall : ∀ d, keys d → d ∈ order')
    (hdistinct : Distinct (blank naming catalog supports ambient) s.1)
    (hdistinct' : Distinct (blank naming catalog supports ambient) s'.1)
    (htwin : Twin s.1 s'.1 k j) : Matched s.1 s'.1 units k j := by
  have hs := (h.rests hfamily.toCircle rests_blank).orderly.sound
  have hs' := (h'.rests hfamily.toCircle rests_blank).orderly.sound
  -- Whatever the first order reaches, the second one reached too, at a time of its own.
  have hbirths : ∀ {d}, keys d → ∃ roots t t₁ f', Birth library keys s'.1 d roots t t₁ f' :=
    fun {d} hd =>
    have ⟨_, hid⟩ := h'.entries hfamily rests_blank d (hall d hd)
    h'.births hfamily rests_blank settles_blank (h'.steady hfamily hmode hdistinct') hid
  obtain ⟨t, ht⟩ := htwin.live hs.linked
  exact h.lockstep hfamily rests_blank settles_blank hs.linked
    hs'.linked hbirths
    (refl_of Grows s.1).endures (h.steady hfamily hmode hdistinct) htwin ⟨t, ht, hs.settled ht⟩

end Ordered

end Blank

/-! ### Texts -/

/-- Rules that resemble each other read alike, if their places of names correspond. -/
theorem Rule.Resembles.shows {L : Likeness} {r r' : Rule} (h : r.Resembles L r')
    (hcell : Option.Rel L.cells r.cell r'.cell) : r.Shows L r' where
  content := h.alike.content.shows
  slot := h.alike.slot
  cell := hcell
  styleset := by
    have hmerged := h.merged
    have hbody := h.alike.content.body?
    unfold Rule.styleset?
    generalize r.merged = m, r'.merged = m' at hmerged
    generalize r.content.body? = b, r'.content.body? = b' at hbody
    cases hmerged with
    | some hmerged => exact .some hmerged
    | none =>
      cases hbody with
      | none => exact .none
      | some hbody => exact .some hbody.styleset

/-- **The functions of the catalog do not look at places of names,**
    whatever corresponds to what. -/
def Catalog.Uniform (catalog : Catalog) : Prop :=
  ∀ L : Likeness, L.Exact → (∀ source, L.sources source) → catalog.Blind L

/-- **Scopes that correspond are written alike,** if they say alike things and their rules have the
    same names. -/
theorem Engine.alikeScopes_of_pairing {P : ScopeId → ScopeId → Prop} (hP : Relator.BiUnique P)
    (hF : Indexed F) (hG : Indexed G) (hcatalog : F.catalog = G.catalog)
    (huniform : F.catalog.Uniform) (hsupports : F.supports = G.supports)
    (hscopes : ∀ {k j}, P k j → ∃ s t, F.scope? k = some s ∧ G.scope? j = some t ∧
      List.Forall₂ (Rule.Resembles (pairing P F G units)) s.rules t.rules)
    (hcells : ∀ {a b}, (pairing P F G units).cells a b → F.cells.get? a = G.cells.get? b) :
    AlikeScopes (pairing P F G units) F G where
  setting :=
    { catalog := hcatalog
      blind := huniform _ (pairing_exact hP hF hG) fun _ => trivial
      names := hcells }
  supports := hsupports
  scopes {k j} hkj := by
    obtain ⟨s, t, hs, ht, hst⟩ := hscopes hkj
    rw [hs, ht]
    -- Rules that stand at the same place correspond, and so do their cells.
    refine .some (List.forall₂_iff_get.mpr ⟨hst.length_eq, fun key hlt hlt' => ?_⟩)
    have hr : F.rule? k key = some (s.rules.get ⟨key, hlt⟩) :=
      rule?_eq_some_iff.mpr ⟨s, hs, List.getElem?_eq_getElem hlt⟩
    have hr' : G.rule? j key = some (t.rules.get ⟨key, hlt'⟩) :=
      rule?_eq_some_iff.mpr ⟨t, ht, List.getElem?_eq_getElem hlt'⟩
    exact ((List.forall₂_iff_get.mp hst).2 key hlt hlt').shows (pairing_cell hkj hF hG hr hr')

/-- **Scopes that correspond have the same text,** wherever their engines write them. -/
theorem Engine.AlikeScopes.render {L : Likeness} {e e' : Engine} (h : AlikeScopes L e e')
    (hkj : L.scopes k j) {a a' : Ambient} (hm : a.Matches L a') :
    (e.render k a).1 = (e'.render j a').1 := by
  let limit := max e.walkLimit e'.walkLimit
  have htexts : (e.serialize k a).1 = (e'.serialize j a').1 :=
    calc (e.serialize k a).1
      _ = (e.serializeWithin limit k a).1 := (serializeWithin_limit (Nat.le_max_left _ _) k a).symm
      _ = (e'.serializeWithin limit j a').1 := (serializeWithin_agree h limit hkj a a' hm).1
      _ = (e'.serialize j a').1 := serializeWithin_limit (Nat.le_max_right _ _) j a'
  unfold Engine.render
  rw [stateful_bind, stateful_bind]
  rcases hrun : e.serialize k a with ⟨r, b⟩
  rcases hrun' : e'.serialize j a' with ⟨r', b'⟩
  rw [hrun, hrun'] at htexts
  cases htexts
  cases r <;> rfl

section Texts

variable {naming : NamingConfig} {catalog : Catalog} {supports : String → Bool} {ambient : Ambient}
  {memory memory' : μ}

/-- **The order in which definitions are processed does not reach the text.** In readable mode,
    where nothing fails and the joined texts of names differ, each definition has a scope in either
    order. Both have the same text, or the same error, whatever conversions
    have been asked before. -/
theorem Ordered.texts_agree (hfamily : Family library keys) (hcatalog : catalog.Uniform)
    (hmode : naming.mode = .readable)
    (h : Ordered library keys (blank naming catalog supports ambient, memory) order s)
    (h' : Ordered library keys (blank naming catalog supports ambient, memory') order' s')
    (hall : ∀ d, keys d → d ∈ order) (hall' : ∀ d, keys d → d ∈ order')
    (hdistinct : Distinct (blank naming catalog supports ambient) s.1)
    (hdistinct' : Distinct (blank naming catalog supports ambient) s'.1) :
    ∀ d, keys d → ∃ k j, s.1.scopeOf? d = some k ∧ s'.1.scopeOf? d = some j ∧
      (s.1.render k s.1.ambient).1 = (s'.1.render j s'.1.ambient).1 ∧
      ∀ a, (s.1.render k a).1 = (s'.1.render j a).1 := by
  intro d hd
  have hF := (h.rests hfamily.toCircle rests_blank).orderly
  have hG := (h'.rests hfamily.toCircle rests_blank).orderly
  have hages := (h.grows hfamily.toCircle rests_blank).evolves.ages
  have hages' := (h'.grows hfamily.toCircle rests_blank).evolves.ages
  obtain ⟨k, hk⟩ := h.entries hfamily rests_blank d (hall d hd)
  obtain ⟨j, hj⟩ := h'.entries hfamily rests_blank d (hall' d hd)
  have hmatched : ∀ units {k j}, Twin s.1 s'.1 k j → Matched s.1 s'.1 units k j :=
    fun _ _ _ htwin => h.matched hfamily hmode h' hall' hdistinct hdistinct' htwin
  have halike : ∀ units, AlikeScopes (twins s.1 s'.1 units) s.1 s'.1 := fun units =>
    alikeScopes_of_pairing (Twin.biUnique hF.sound.linked hG.sound.linked) hF.vacant.toIndexed
      hG.vacant.toIndexed (hages.catalog.trans hages'.catalog.symm)
      (by rw [hages.catalog]; exact hcatalog) (hages.supports.trans hages'.supports.symm)
      (fun htwin => by
        obtain ⟨u, v, hu, hv, huv⟩ := (hmatched units htwin).scope
        exact ⟨u, v, hu, hv, huv.rules⟩)
      fun ⟨_, _, _, htwin, ha, hb⟩ => (hmatched units htwin).cell ha hb
  refine ⟨k, j, hk, hj,
    (halike ambient.units).render (.entry hk hj) ⟨hages.units, hages'.units, ?_⟩,
    fun a => (halike a.units).render (.entry hk hj) ⟨rfl, rfl, fun _ _ => rfl⟩⟩
  -- Processing asks for no conversion, so both engines write from where they started.
  intro source _ n
  unfold Ambient.count
  rw [hages.asked, hages'.asked]

end Texts

/-! ### A sample -/

/-- The slots that names were made for. -/
def Engine.generated (e : Engine) : List (String × String) :=
  e.ambient.events.filterMap fun
    | .nameGenerated scope slot _ => some (scope, slot)
    | _ => none

/-- Whether their texts differ can be seen from them. -/
theorem Engine.distinct_of_generated (hstart : e.ambient.events = [])
    (h : ∀ p ∈ F.generated, ∀ q ∈ F.generated, p.1 ++ "_" ++ p.2 = q.1 ++ "_" ++ q.2 → p = q) :
    Distinct e F := by
  have hmem : ∀ {scope slot}, Generated e F scope slot → (scope, slot) ∈ F.generated := by
    rintro scope slot ⟨name, later, hlater, hevent⟩
    rw [hstart, List.append_nil] at hlater
    exact List.mem_filterMap.mpr ⟨_, hlater ▸ hevent, rfl⟩
  exact fun _ _ _ _ hg hg' heq => Prod.mk.inj (h _ (hmem hg) _ (hmem hg') heq)

/-- The definitions are processed one after the other, as long as they get scopes. -/
def processAll (library : Library μ) (limit : Nat) : List Nat → Engine × μ → Option (Engine × μ)
  | [], s => some s
  | key :: rest, s =>
    match process library limit key s with
    | some (.ok _, s') => processAll library limit rest s'
    | _ => none

/-- **They are processed in this order,** if scripts give up when calls fail. -/
theorem Ordered.of_processAll (hlibrary : ∀ d, (library d).script.GivesUp) {rest : List Nat}
    (hkeys : ∀ d ∈ rest, keys d) (h : Ordered library keys start order s)
    (hall : processAll library limit rest s = some s') :
    Ordered library keys start (order ++ rest) s' := by
  induction rest generalizing order s with
  | nil =>
    cases hall
    rwa [List.append_nil]
  | cons key rest ih =>
    unfold processAll at hall
    split at hall
    · next id s₁ hprocess =>
      have hcall := h.call (hkeys key List.mem_cons_self) (.of_answer hlibrary hprocess) hprocess
      rw [List.append_cons]
      exact ih (fun d hd => hkeys d (List.mem_cons_of_mem _ hd)) hcall hall
    · cases hall

/-- A library of a definition, of one that uses it, and of one that extends it and uses the other
    one, all with rules that inherit from those that are used. -/
def sharedLibrary : Library Unit
  | 0 => ⟨0, "Base", "base", false,
      .add "box" (.cls (Styleset.empty.set "color" (.text "red"))) fun _ => .done⟩
  | 1 => ⟨1, "Card", "card", false, .use 0 fun
      | .error err => .fail err
      | .ok refs => .add "body" ((Rule.cls .empty).inherit (refs.rules.map (·.2))) fun _ => .done⟩
  | key => ⟨key, "Page", "page", false, .extend 0 fun
      | .error err => .fail err
      | .ok _ => .use 1 fun
        | .error err => .fail err
        | .ok refs => .group (.media "print")
            (.add "wide" ((Rule.cls .empty).inherit (refs.rules.map (·.2))) fun _ => .done) fun
          | .error err => .fail err
          | .ok _ => .done⟩

/-- Its scripts give up when calls fail. -/
theorem sharedLibrary_givesUp : ∀ d, (sharedLibrary d).script.GivesUp
  | 0 => fun _ => trivial
  | 1 => ⟨fun err => ⟨err, rfl⟩, fun _ _ => trivial⟩
  | _ + 2 => ⟨fun err => ⟨err, rfl⟩, fun _ => ⟨fun err => ⟨err, rfl⟩, fun _ =>
      ⟨fun _ => trivial, fun err => ⟨err, rfl⟩, fun _ => trivial⟩⟩⟩

/-- Its scripts depend only on what their calls return. -/
theorem sharedLibrary_uniform : ∀ d, (sharedLibrary d).script.Uniform := by
  intro d L _ _
  -- A rule that inherits from all rules of a scope.
  have hinherit : ∀ {L' : Likeness} {refs refs' : ScopeRefs}, refs.Alike L' refs' →
      ((Rule.cls .empty).inherit (refs.rules.map (·.2))).Alike L'
        ((Rule.cls .empty).inherit (refs'.rules.map (·.2))) := fun h =>
    ⟨.cls ⟨.empty, List.forall₂_map_left_iff.mpr <| List.forall₂_map_right_iff.mpr <|
      h.rules.imp fun _ _ ⟨_, hr⟩ => hr⟩, rfl, rfl⟩
  match d with
  | 0 =>
    have hbox : (Rule.cls (Styleset.empty.set "color" (.text "red"))).Alike L
        (.cls (Styleset.empty.set "color" (.text "red"))) :=
      ⟨.cls ⟨.of (.cons ⟨rfl, .text, rfl⟩ .nil) .nil .nil, .nil⟩, rfl, rfl⟩
    exact .add hbox fun _ _ _ _ _ => .done
  | 1 => exact .use fun _ _ _ _ hrefs => .add (hinherit hrefs) fun _ _ _ _ _ => .done
  | _ + 2 =>
    exact .extend fun _ _ _ _ _ => .use fun _ _ _ _ hrefs =>
      .group (fun hle _ => .add ((hinherit hrefs).mono hle) fun _ _ _ _ _ => .done)
        fun _ _ _ _ _ => .done

/-- Its definitions are a family. -/
theorem sharedLibrary_family : Family sharedLibrary (· < 3) where
  key {d} hd := by interval_cases d <;> rfl
  single {d} hd := by interval_cases d <;> rfl
  uniform _ := sharedLibrary_uniform _
  stays {d} hd := by
    interval_cases d
    · exact fun _ => trivial
    · exact ⟨by decide, fun _ _ => trivial⟩
    · exact ⟨by decide, fun _ => ⟨by decide, fun _ => ⟨fun _ => trivial, fun _ => trivial⟩⟩⟩
  scopeName_inj {d d'} hd hd' heq := by
    interval_cases d <;> interval_cases d' <;> first | rfl | exact absurd heq (by decide)

/-- The functions of the standard catalog do not look at places. -/
theorem Catalog.standard_uniform : Catalog.standard.Uniform := fun _ _ _ => Catalog.standard_blind

/-- The definition that extends one and uses another one gets other numbers if it is processed
    first, and the same text. -/
theorem texts_agree_of_reversed : ∃ s s' : Engine × Unit,
    Ordered sharedLibrary (· < 3) (blank {} .standard (fun _ => true) .initial, ()) [0, 1, 2] s ∧
      Ordered sharedLibrary (· < 3) (blank {} .standard (fun _ => true) .initial, ()) [2, 1, 0] s' ∧
      s.1.scopeOf? 2 = some 3 ∧ s'.1.scopeOf? 2 = some 1 ∧
      (s.1.render 3 s.1.ambient).1 = (s'.1.render 1 s'.1.ambient).1 ∧
      ∀ a, (s.1.render 3 a).1 = (s'.1.render 1 a).1 := by
  let start : Engine × Unit := (blank {} .standard (fun _ => true) .initial, ())
  let names := [("page", "wide"), ("card", "body"), ("base", "box")]
  -- Both orders are run: they get other numbers, and make the same names.
  have hout : (processAll sharedLibrary 4 [0, 1, 2] start).any fun s =>
      (processAll sharedLibrary 4 [2, 1, 0] start).any fun s' =>
        s.1.scopeOf? 2 = some 3 && s'.1.scopeOf? 2 = some 1 && s.1.generated = names &&
          s'.1.generated = names := by decide +kernel
  obtain ⟨s, hall, hp⟩ := (Option.any_eq_true _ _).mp hout
  obtain ⟨s', hall', hp⟩ := (Option.any_eq_true _ _).mp hp
  simp only [Bool.and_eq_true, decide_eq_true_eq] at hp
  obtain ⟨⟨⟨hk, hj⟩, hnames⟩, hnames'⟩ := hp
  have hkeys : ∀ order : List Nat, order.all (· < 3) → ∀ d ∈ order, d < 3 := fun order h d hd =>
    of_decide_eq_true (List.all_eq_true.mp h d hd)
  have hnone : Ordered sharedLibrary (· < 3) start [] start := .start
  have hordered := hnone.of_processAll sharedLibrary_givesUp (hkeys [0, 1, 2] rfl) hall
  have hordered' := hnone.of_processAll sharedLibrary_givesUp (hkeys [2, 1, 0] rfl) hall'
  have hdistinct : ∀ {e : Engine}, e.generated = names → Distinct start.1 e := fun h =>
    distinct_of_generated rfl (by rw [h]; decide)
  obtain ⟨k, j, hk', hj', hown, htexts⟩ := Ordered.texts_agree sharedLibrary_family
    Catalog.standard_uniform rfl hordered hordered' (fun d hd => by interval_cases d <;> decide)
    (fun d hd => by interval_cases d <;> decide) (hdistinct hnames)
    (hdistinct hnames') 2 (by decide)
  cases hk.symm.trans hk'
  cases hj.symm.trans hj'
  exact ⟨s, s', hordered, hordered', hk, hj, hown, htexts⟩

end StyleBook
