import StyleBook.Proofs.Conversion.ConversionErrors

namespace StyleBook

/-!
# Operands of math functions

The text of a math function is computed later than that of the value that it stands in, from
operands that the standard catalog writes.

* `Conversion.KnownAlike` — two catalogs know the same of all that a conversion comes to;
  `Conversion.text_congr` — then both write the same;
* `Conversion.math_text` — the text of a math function is made of the texts that its operands have
  by the standard catalog, and so of those that they have by the catalog in use, if both know the
  same of them, as they do of operands that call no function;
* `Conversion.operand_lost` — otherwise an operand may have a text standing alone, and none here.
-/

namespace Conversion

variable {s s' : Setting}

/-! ### Catalogs that know the same -/

/-- **Both settings know the same** of all categories and functions that a conversion comes to. -/
def KnownAlike (s s' : Setting) (t : Task) : Prop :=
  ∀ t', Relation.ReflTransGen (Leads s.catalog) t t' → SameFor s s' t'

/-- **Then both write the same.** -/
theorem text_congr {t : Task} (h : KnownAlike s s' t) : t.text s = t.text s' := by
  induction t using (calls_wf s.catalog).induction with
  | _ t ih =>
    rw [text_eq, text_eq, ← (h t .refl).names]
    refine outline_congr (h t .refl) (fun t' hleads => ?_) fun _ _ => rfl
    exact ih t' (.inl hleads) fun t'' hreached => h t'' (.head hleads hreached)

/-- **A value that stands in lists,** nested in each other, or alone. -/
inductive Nests (v : Value) : Value → Prop
  | here : Nests v v
  | item {items w} (h : Nests v (.list items)) (hw : w ∈ items) : Nests v w

/-- Nothing else stands in a value that is not a list. -/
theorem Nests.eq {v w : Value} (hv : ∀ items, v ≠ .list items) (h : Nests v w) : w = v := by
  induction h with
  | here => rfl
  | item _ _ ih => exact absurd ih.symm (hv _)

/-- The value calls no function, alone or in lists. What stands inside a math
    function does not count. -/
def Callless (v : Value) : Prop :=
  ∀ function args repeating, ¬ Nests v (.call function args repeating)

/-- Numbers of a family are written item by item. -/
theorem Leads.numeric {catalog : Catalog} {family : NumericFamily} {v : Value} {t : Task}
    (h : Leads catalog ⟨[], .numeric family, v⟩ t) (hcall : ∀ function args repeating,
      v ≠ .call function args repeating) :
    ∃ items w, v = .list items ∧ w ∈ items ∧ t = ⟨[], .numeric family, w⟩ := by
  unfold Recipe.numeric at h ⊢
  cases h with
  | @item _ _ shape items w hshape _ hw =>
    cases hshape
    exact ⟨items, w, rfl, hw, rfl⟩
  | field hshape hrecord =>
    cases hshape
    cases hrecord
  | whole => exact absurd rfl (hcall _ _ _)
  | argument => exact absurd rfl (hcall _ _ _)

/-- **All catalogs know the same of operands without calls,** namely nothing. -/
theorem Callless.knownAlike {v : Value} (h : Callless v) (hnames : s.names = s'.names)
    (family : NumericFamily) : KnownAlike s s' ⟨[], .numeric family, v⟩ := by
  have hcalls : ∀ {w}, Nests v w → ∀ function args repeating,
    w ≠ .call function args repeating := by
    rintro w hw function args repeating rfl
    exact h _ _ _ hw
  have hreached : ∀ t, Relation.ReflTransGen (Leads s.catalog) ⟨[], .numeric family, v⟩ t →
      ∃ w, Nests v w ∧ t = ⟨[], .numeric family, w⟩ := by
    intro t ht
    induction ht with
    | refl => exact ⟨v, .here, rfl⟩
    | tail _ hstep ih =>
      obtain ⟨w, hw, rfl⟩ := ih
      obtain ⟨items, x, rfl, hx, rfl⟩ := hstep.numeric (hcalls hw)
      exact ⟨x, .item hw hx, rfl⟩
  intro t ht
  obtain ⟨w, hw, rfl⟩ := hreached t ht
  exact ⟨hnames, nofun, fun hcall => absurd hcall (hcalls hw _ _ _)⟩

/-! ### Math functions -/

/-- A math function is asked for its text, and asks for those of its operands. -/
theorem run_math {recipe : Recipe} {shape : Shape} (hrecipe : recipe.shape? = some shape)
    (followed : List Category) (id : Nat) (function : MathFunction) (family : NumericFamily)
    (operands : List Value) (a : Ambient) :
    run s followed recipe (.math id function family operands) a = (do
      let texts ← textsBy (fun v =>
        orDropped family (convert ⟨.standard, s.names⟩ (.numeric family) v))
        operands
      return function.write texts : Convert String) (a.ask id) := by
  rw [run_eq_shaped hrecipe, shaped_eq_shapedBy hrecipe, shapedBy]
  rfl

/-- Operands that have texts are not left out. -/
theorem textsBy_orDropped {write : Value → Convert String} {family : NumericFamily}
    {operands : List Value} {texts : List String} {a a' : Ambient}
    (h : textsBy write operands a = (.ok texts, a')) :
    textsBy (fun v => orDropped family (write v)) operands a = (.ok texts, a') := by
  induction operands generalizing texts a with
  | nil => exact h
  | cons v rest ih =>
    rw [textsBy] at h ⊢
    obtain ⟨text, a₁, hv, h⟩ := stateful_bind_eq_ok h
    obtain ⟨texts', a₂, hrest, h⟩ := stateful_bind_eq_ok h
    cases h
    have hattempt : Convert.attempt (write v) a = (.ok (.ok text), a₁) := by
      unfold Convert.attempt
      rw [hv]
    have hkept : orDropped family (write v) a = (.ok text, a₁) := stateful_bind_ok hattempt _
    rw [stateful_bind_ok hkept, stateful_bind_ok (ih hrest)]
    rfl

/-- **The text of a math function is made of those of its operands.** If these are written one after
    the other by the standard catalog, the text is the function of theirs. It is just as well that
    of the texts by the catalog in use, if both catalogs know the same of all that the operands come
    to, and in particular if the operands call no function. -/
theorem math_text (s : Setting) {recipe : Recipe} {shape : Shape}
    (hrecipe : recipe.shape? = some shape) (id : Nat) (function : MathFunction)
    (family : NumericFamily) (operands : List Value) (texts : List String) (a a' : Ambient) :
    (textsBy (convert ⟨.standard, s.names⟩ (.numeric family)) operands (a.ask id) =
      (.ok texts, a') →
      convert s recipe (.math id function family operands) a = (.ok (function.write texts), a')) ∧
    ((∀ v ∈ operands, KnownAlike s ⟨.standard, s.names⟩ ⟨[], .numeric family, v⟩) →
      textsBy (convert s (.numeric family)) operands (a.ask id) = (.ok texts, a') →
        convert s recipe (.math id function family operands) a = (.ok (function.write texts), a')) ∧
    ((∀ v ∈ operands, Callless v) →
      textsBy (convert s (.numeric family)) operands (a.ask id) = (.ok texts, a') →
        convert s recipe (.math id function family operands) a =
          (.ok (function.write texts), a')) := by
  -- All three forms come down to operands that the standard catalog writes.
  have hstandard : textsBy (convert ⟨.standard, s.names⟩ (.numeric family)) operands (a.ask id) =
      (.ok texts, a') →
        convert s recipe (.math id function family operands) a =
        (.ok (function.write texts), a') := by
    intro h
    unfold convert
    rw [run_math hrecipe]
    exact stateful_bind_ok (textsBy_orDropped h) _
  have halike : (∀ v ∈ operands, KnownAlike s ⟨.standard, s.names⟩ ⟨[], .numeric family, v⟩) →
      textsBy (convert s (.numeric family)) operands (a.ask id) = (.ok texts, a') →
        convert s recipe (.math id function family operands) a =
        (.ok (function.write texts), a') := by
    intro h htexts
    have hsame : textsBy (convert s (.numeric family)) operands =
        textsBy (convert ⟨.standard, s.names⟩ (.numeric family)) operands :=
      textsBy_congr fun v hv => text_congr (h v hv)
    rw [hsame] at htexts
    exact hstandard htexts
  refine ⟨hstandard, halike, fun h => halike fun v hv => ?_⟩
  exact (h v hv).knownAlike (show s.names = (⟨.standard, s.names⟩ : Setting).names from rfl) family

/-- A number alone has the unit of the family. -/
theorem convert_number (s : Setting) (family : NumericFamily) (x : Number) (a : Ambient) :
    convert s (.numeric family) (.number x) a = (.ok (family.write a.units x), a) := by
  unfold convert Recipe.numeric
  rw [run, shaped]
  rfl

/-- The smaller of two lengths, by a catalog that knows nothing. -/
theorem math_text_of_lengths :
    textsBy (convert ⟨.empty, fun _ => none⟩ (.numeric .length)) [.number 1, .number 2]
        (Ambient.initial.ask 0) = (.ok ["1px", "2px"], Ambient.initial.ask 0) ∧
      convert ⟨.empty, fun _ => none⟩ .plain
      (.math 0 .min .length [.number 1, .number 2]) .initial =
        (.ok "min(1px,2px)", Ambient.initial.ask 0) := by
  have hone : NumericFamily.length.write (Ambient.initial.ask 0).units 1 = "1px" :=
    by decide +kernel
  have htwo : NumericFamily.length.write (Ambient.initial.ask 0).units 2 = "2px" :=
    by decide +kernel
  have htexts : textsBy (convert ⟨.empty, fun _ => none⟩ (.numeric .length)) [.number 1, .number 2]
      (Ambient.initial.ask 0) = (.ok ["1px", "2px"], Ambient.initial.ask 0) := by
    simp only [textsBy]
    rw [stateful_bind_ok (convert_number _ _ _ _), bind_assoc,
      stateful_bind_ok (convert_number _ _ _ _), hone, htwo]
    rfl
  have hnumber : ∀ x, Callless (.number x) := by
    intro x function args repeating h
    cases Nests.eq (v := .number x) (fun _ h => by cases h) h
  have hcallless : ∀ v ∈ ([.number 1, .number 2] : List Value), Callless v := by
    simp only [List.forall_mem_cons, hnumber, List.not_mem_nil, false_imp_iff,
      implies_true, and_true]
  have hplain : Recipe.plain.shape? = some {} := rfl
  obtain ⟨-, -, hmath⟩ := math_text ⟨.empty, fun _ => none⟩ hplain 0 .min .length
    [.number 1, .number 2] ["1px", "2px"] .initial (Ambient.initial.ask 0)
  exact ⟨htexts, hmath hcallless htexts⟩

/-- **The place of an operand that has no text stays empty,** and a number stands behind it. -/
theorem run_math_dropped {recipe : Recipe} {shape : Shape} (hrecipe : recipe.shape? = some shape)
    {family : NumericFamily} {v : Value} {err : Error}
    (hv : convert ⟨.standard, s.names⟩ (.numeric family) v = throw err)
    (followed : List Category) (id : Nat) (function : MathFunction) (x : Number) (a : Ambient) :
    run s followed recipe (.math id function family [v, .number x]) a =
      (.ok (function.write ["", family.write a.units x]),
        (a.ask id).report (.operandDropped family.name err)) := by
  -- The events of the operand that was dropped stay, so the number is written after them.
  let b := (a.ask id).report (.operandDropped family.name err)
  have hdropped : orDropped family (convert ⟨.standard, s.names⟩ (.numeric family) v) (a.ask id) =
      (.ok "", b) := by
    rw [hv]
    rfl
  have hnumber : textsBy (fun v =>
    orDropped family (convert ⟨.standard, s.names⟩ (.numeric family) v))
      [.number x] b = (.ok [family.write a.units x], b) := by
    refine textsBy_orDropped ?_
    rw [textsBy, stateful_bind_ok (convert_number _ _ _ _)]
    rfl
  rw [run_math hrecipe, textsBy, bind_assoc, stateful_bind_ok hdropped, bind_assoc,
    stateful_bind_ok hnumber]
  rfl

/-- The standard catalog with a function of one name. -/
def envCatalog : Catalog :=
  { Catalog.standard with
    functions := Catalog.standard.functions ++ [("env", .ofParams "env" "," [.plain "name"])] }

set_option maxRecDepth 100000 in
/-- **An operand that has a text standing alone may be left out of a math function:** the call of a
    function that the catalog in use has, and the standard catalog has not. -/
theorem operand_lost :
    (CatalogBuilder.empty.addStandard.function (.ofParams "env" "," [.plain "name"])).build =
        .ok envCatalog ∧
      ∀ names : Names,
        (convert ⟨envCatalog, names⟩ (.numeric .length) (.call "env" (.text "x") false)
            .initial).1 = .ok "env(x)" ∧
          (convert ⟨envCatalog, names⟩ (.numeric .length) (.number 10) .initial).1 = .ok "10px" ∧
          (convert ⟨envCatalog, names⟩ .plain
            (.math 0 .min .length [.call "env" (.text "x") false, .number 10]) .initial).1 =
              .ok "min(,10px)" := by
  have hd : envCatalog.descriptor? "env" = some (.ofParams "env" "," [.plain "name"]) := rfl
  have hnone : Catalog.standard.descriptor? "env" = none := rfl
  refine ⟨rfl, fun names => ⟨?_, ?_, ?_⟩⟩
  -- The catalog in use has the function, which joins its only argument.
  · have hx : run ⟨envCatalog, names⟩ [] .plain (.text "x") = pure "x" := by
      rw [run, shaped]
    have hrecord : record ⟨envCatalog, names⟩ [.plain "name"] ","
      [("name", .text "x")] = pure "x" := by
      rw [record_eq]
      show ((run ⟨envCatalog, names⟩ [] .plain (.text "x") >>= fun _ => _) >>= _) = _
      rw [hx]
      rfl
    unfold convert Recipe.numeric
    rw [run, shaped, call_eq]
    simp only [hd]
    show ((Convert.mapError _ (record ⟨envCatalog, names⟩ [.plain "name"] "," [("name", .text "x")])
      >>= _) Ambient.initial).1 = _
    rw [hrecord]
    rfl
  · rw [convert_number]
    decide +kernel
  · -- The standard catalog has no such function, so the operand is left out.
    have hfails : convert ⟨.standard, names⟩ (.numeric .length) (.call "env" (.text "x") false) =
        throw (.unsupportedValue "function" "unregistered function 'env'") := by
      unfold convert Recipe.numeric
      rw [run, shaped, call_eq]
      simp only [hnone]
      rfl
    have hten : NumericFamily.length.write Ambient.initial.units 10 = "10px" := by decide +kernel
    unfold convert
    rw [run_math_dropped (s := ⟨envCatalog, names⟩) rfl hfails, hten]
    rfl

end Conversion

end StyleBook
