import StyleBook.Proofs.Name.SlotNames
import StyleBook.Proofs.Order.Ages
import StyleBook.Proofs.Rule.Handles
import StyleBook.Proofs.Scope.Layers
import StyleBook.Proofs.Scope.Vacancies
import StyleBook.Proofs.Script.Onwards

namespace StyleBook

/-!
# What an engine keeps while it grows

What was found in an engine is found there later: the scopes of definitions, the scopes that are
nested in others in their order, and the rules with their places and names.

* `Engine.Stepwise.and` — two relations that hold across every step of building hold together;
* `Engine.Evolves` — what holds across every step of building, in one;
* `Engine.Grows` — an engine keeps what was found there;
* `Engine.Endures` — so it does where scopes may have been processed since;
* `Engine.Orderly` — the invariants of an engine that builds, in one.
-/

namespace Engine

variable {Q Q' : List ScopeId → Engine → Engine → Prop}
  {R R' : List ScopeId → Builder → Engine → Engine → Prop}

/-- Two relations that hold across the steps of scripts hold together. -/
theorem Scripted.and (h : Scripted Q R) (h' : Scripted Q' R') :
    Scripted (fun roots e e' => Q roots e e' ∧ Q' roots e e')
      (fun roots b e e' => R roots b e e' ∧ R' roots b e e') where
  refl := ⟨h.refl, h'.refl⟩
  trans h₁ h₂ := ⟨h.trans h₁.1 h₂.1, h'.trans h₁.2 h₂.2⟩
  report event := ⟨h.report event, h'.report event⟩
  addRule hs hb slot rule := ⟨h.addRule hs hb slot rule, h'.addRule hs hb slot rule⟩
  addUnnamedRule hs hb rule := ⟨h.addUnnamedRule hs hb rule, h'.addUnnamedRule hs hb rule⟩
  setBase hs hb hdepth hready := ⟨h.setBase hs hb hdepth hready, h'.setBase hs hb hdepth hready⟩
  addReference hs hb hready := ⟨h.addReference hs hb hready, h'.addReference hs hb hready⟩
  process hs hb hQ := ⟨h.process hs hb hQ.1, h'.process hs hb hQ.2⟩
  declare hR := ⟨h.declare hR.1, h'.declare hR.2⟩
  group hs hb hR := ⟨h.group hs hb hR.1, h'.group hs hb hR.2⟩

/-- **Two relations that hold across every step of building hold together.** -/
theorem Stepwise.and (h : Stepwise Q R) (h' : Stepwise Q' R') :
    Stepwise (fun roots e e' => Q roots e e' ∧ Q' roots e e')
      (fun roots b e e' => R roots b e e' ∧ R' roots b e e') where
  toScripted := h.toScripted.and h'.toScripted
  idle := ⟨h.idle, h'.idle⟩
  processed d hs hs₁ hx hR hrun :=
    ⟨h.processed d hs hs₁ hx hR.1 hrun, h'.processed d hs hs₁ hx hR.2 hrun⟩
  unprocessed d hs hs₁ hx hR hrun :=
    ⟨h.unprocessed d hs hs₁ hx hR.1 hrun, h'.unprocessed d hs hs₁ hx hR.2 hrun⟩
  failed d event hs hs₁ hx hR := ⟨h.failed d event hs hs₁ hx hR.1, h'.failed d event hs hs₁ hx hR.2⟩

end Engine

namespace Scope

/-- The scopes that are nested in the scope are those that were, in their order, and later ones. -/
def Fosters (s s' : Scope) : Prop := s.children <+: s'.children

instance : IsPreorder Scope Fosters where
  refl _ := List.prefix_rfl
  trans _ _ _ := List.IsPrefix.trans

/-- A nested scope keeps its place. -/
theorem Fosters.getElem? {s s' : Scope} (h : Fosters s s') {n : Nat} {c : ScopeId}
    (hc : s.children[n]? = some c) : s'.children[n]? = some c := by
  obtain ⟨hlt, rfl⟩ := List.getElem?_eq_some_iff.mp hc
  exact List.prefix_iff_getElem?.mp h n hlt

end Scope

namespace Engine

variable {e e' e'' : Engine} {roots : List ScopeId} {root k : ScopeId}

/-- **Nested scopes keep their order, whatever is built.** -/
theorem fosters_stepwise :
    Stepwise (fun _ => Carries fun _ => Scope.Fosters)
    (fun _ _ => Carries fun _ => Scope.Fosters) :=
  children_stepwise (fun h => ⟨[], by rw [List.append_nil, h]⟩) fun _ _ => List.prefix_append _ _

/-- **What holds across every step of building:** rules keep their places, nested scopes their
    order, and names stay where they are. -/
@[mk_iff]
structure Evolves (e e' : Engine) : Prop where
  vacant : Vacant e → Vacant e'
  layered : Preserves Layered e e'
  labelled : Preserves Labelled e e'
  anchors : Anchors e e'
  fosters : Carries (fun _ => Scope.Fosters) e e'
  kept : Kept e e'
  ages : Ages e e'

theorem evolves_stepwise : Stepwise (fun _ => Evolves) (fun _ _ => Evolves) := by
  have h := vacant_stepwise.and <| layered_survives.stepwise.and <|
    labelled_survives.stepwise.and <| anchored_stepwise.and <|
    fosters_stepwise.and <| kept_stepwise.and ages_stepwise
  simpa only [← evolves_iff] using h

namespace Evolves

protected theorem refl (e : Engine) : Evolves e e :=
  @evolves_stepwise.refl [] ⟨0, 0⟩ e

protected theorem trans (h : Evolves e e') (h' : Evolves e' e'') : Evolves e e'' :=
  @evolves_stepwise.trans [] ⟨0, 0⟩ e e' e'' h h'

protected theorem report (event : Event) : Evolves e (e.report event) :=
  @evolves_stepwise.report [] ⟨0, 0⟩ e event

end Evolves

/-- **The second engine keeps what was found in the first one.** -/
structure Grows (e e' : Engine) : Prop where
  extended : Extends e e'
  evolves : Evolves e e'
  entries {d k} : e.scopeOf? d = some k → e'.scopeOf? d = some k

instance : IsPreorder Engine Grows where
  refl e := ⟨.refl e, .refl e, id⟩
  trans _ _ _ h h' :=
    ⟨h.extended.trans h'.extended, h.evolves.trans h'.evolves, h'.entries ∘ h.entries⟩

/-- **What was found in the first engine is found in the second one,** where scopes may have been
    processed since. -/
structure Endures (e e' : Engine) : Prop where
  settled {k s} : e.scope? k = some s → s.Settled → e'.scope? k = some s
  owner : Carries (fun _ s s' => s'.owner = s.owner) e e'
  anchors : Anchors e e'
  fosters : Carries (fun _ => Scope.Fosters) e e'
  kept : Kept e e'
  ages : Ages e e'
  entries {d k} : e.scopeOf? d = some k → e'.scopeOf? d = some k

theorem Grows.endures (h : Grows e e') : Endures e e' where
  settled := h.extended.settled
  owner _ _ hs := by
    obtain ⟨s', hs', -, ho, -⟩ := h.extended.scope hs
    exact ⟨s', hs', ho⟩
  anchors := h.evolves.anchors
  fosters := h.evolves.fosters
  kept := h.evolves.kept
  ages := h.evolves.ages
  entries := h.entries

namespace Endures

theorem trans (h : Endures e e') (h' : Endures e' e'') : Endures e e'' where
  settled hs hsettled := h'.settled (h.settled hs hsettled) hsettled
  owner k s hs := by
    obtain ⟨s', hs', ho⟩ := h.owner k s hs
    obtain ⟨s'', hs'', ho'⟩ := h'.owner k s' hs'
    exact ⟨s'', hs'', ho'.trans ho⟩
  anchors := h.anchors.trans h'.anchors
  fosters := h.fosters.trans h'.fosters
  kept := h.kept.trans h'.kept
  ages := trans_of Ages h.ages h'.ages
  entries := h'.entries ∘ h.entries

theorem settles (h : Endures e e') (hk : e.Settles k) : e'.Settles k :=
  hk.imp fun _ ⟨hs, hsettled⟩ => ⟨h.settled hs hsettled, hsettled⟩

theorem inside (h : Endures e e') (hin : e.Inside root k) : e'.Inside root k :=
  hin.of_owner fun hs => h.owner _ _ hs

/-- What was not inside of a scope is not inside of it later. -/
theorem inside_back (h : Endures e e') (hl : Linked e) {t : Scope} (hk : e.scope? k = some t)
    (hin : e'.Inside root k) : e.Inside root k := by
  induction hin generalizing t with
  | root _ => exact .root hk
  | nested hs' howner _ ih =>
    obtain ⟨s', hs, ho⟩ := h.owner _ _ hk
    cases hs.symm.trans hs'
    have hown := ho.symm.trans howner
    obtain ⟨-, o, hlive, -⟩ := hl.owner_child hk hown
    exact .nested hk hown (ih hlive)

/-- What is nested in a processed scope later was nested there. -/
theorem inside_settled (h : Endures e e') (hl : Linked e) (hl' : Linked e') (hroot : e.Settles root)
    (hin : e'.Inside root k) : e.Inside root k := by
  induction hin with
  | root _ =>
    obtain ⟨s, hs, -⟩ := hroot
    exact .root hs
  | nested hs' howner _ ih =>
    obtain ⟨r, hr, hsettled⟩ := hroot
    obtain ⟨o, ho⟩ := ih.live
    have hsettled' := hl.settled_of_inside ih hr hsettled ho
    obtain ⟨-, o', ho', hmem, -⟩ := hl'.owner_child hs' howner
    cases (h.settled ho hsettled').symm.trans ho'
    obtain ⟨t, ht, hown⟩ := hl.child_owner ho hmem
    exact .nested ht hown ih

/-- **A scope is processed** of a definition that has declared. -/
theorem processed (hs : Sound (root :: roots) e) (hrun : processScope root e = (.ok (), e')) :
    Endures e e' := by
  have hlayout := processScope_layout root e
  have hproc := hs.pending.processScope hs
  have hanchors := processScope_anchored root e
  have hkept := processScope_kept hs
  have hages := Ages.processScope root e
  have hsame := (processScope_undisturbed root e).singletons
  rw [hrun] at hlayout hproc hanchors hkept hages hsame
  exact
    { settled := fun hs hsettled => by
        -- A settled scope was processed before, and processing leaves it alone.
        obtain ⟨s', hs', hp⟩ := hproc.progressed.scope hs
        rw [hs', hp.settled hsettled]
      owner := fun k s hs => by
        obtain ⟨s', hs', hl⟩ := hlayout.scope hs
        exact ⟨s', hs', hl.owner⟩
      anchors := .rescoped hanchors fun _ _ _ h => h
      fosters := .rescoped hlayout fun _ _ _ h => ⟨[], by rw [List.append_nil, h.children]⟩
      kept := hkept
      ages := hages
      entries := fun hd => by rw [scopeOf?, hsame]; exact hd }

/-- The definition that declared last has done so. -/
theorem endConstruction (e : Engine) : Endures e e.endConstruction where
  settled hs _ := hs
  owner _ _ hs := ⟨_, hs, rfl⟩
  anchors _ _ hs := ⟨_, hs, refl_of Scope.Anchored _⟩
  fosters _ _ hs := ⟨_, hs, refl_of Scope.Fosters _⟩
  kept := ⟨le_rfl, fun _ h => h, fun _ _ => rfl, rfl⟩
  ages := .of_eq rfl rfl rfl rfl
  entries h := h

end Endures

/-- **The invariants of an engine that builds,** while the definitions of `roots` declare. -/
structure Orderly (roots : List ScopeId) (e : Engine) : Prop where
  sound : Sound roots e
  inherits : Inherits e
  vacant : Vacant e
  unnamed : e.Unnamed
  layered : Layered e
  labelled : Labelled e

/-- They are kept across every step. -/
theorem Orderly.evolves (h : Orderly roots e) {roots' : List ScopeId} (hs : Sound roots' e')
    (hi : Inherits e') (hev : Evolves e e') : Orderly roots' e' :=
  have hlayered := hev.layered h.unnamed h.layered
  ⟨hs, hi, hev.vacant h.vacant, hlayered.1, hlayered.2, (hev.labelled h.unnamed h.labelled).2⟩

end Engine

end StyleBook
