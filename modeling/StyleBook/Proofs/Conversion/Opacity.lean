import StyleBook.Proofs.Conversion.Operands
import StyleBook.Proofs.Number.ReadingNumbers

namespace StyleBook

/-!
# The opacity of colour functions

The text of a colour function ends with the opacity that its alpha stands for: a magnitude below one
is the opacity itself, one between one and a hundred is a percentage, and all others are full
opacity, which is not written. Only an alpha of zero is written like full opacity.

* `Color.opacity?` — what an alpha stands for;
* `Color.Carries` — a part of a text that says so, as a number that is rounded to the same;
* `Color.alphaPart_carries` — what is written of an alpha that is not zero;
* `Conversion.rgba_text`, `Conversion.hsla_text` — the texts of both functions, part by part;
* `Color.opacity_carried` — so they carry the opacity;
* `Color.opacity_lost` — but not that of zero.
-/

/-! ### Numbers are written -/

namespace Number

theorem css_ne_empty (x : Number) : x.css ≠ "" := by
  unfold css
  by_cases hzero : x.isZero = true
  · rw [if_pos hzero]
    decide
  · rw [if_neg hzero]
    -- Digits are read back, and nothing is read from an empty text.
    have hmagnitude : ∀ n d, NumberLayout.plain.magnitude n d ≠ "" := by
      intro n d h
      have hread := NumberLayout.read?_positional (Decimal.shortest n d)
      rw [show NumberLayout.plain.positional (Decimal.shortest n d) = "" from h] at hread
      cases hread
    cases x with
    | finite q =>
      show (if q = 0 then "0" else if q < 0 then "-" ++ NumberLayout.plain.magnitude _ _
        else NumberLayout.plain.magnitude _ _) ≠ ""
      split
      · decide
      · split
        · simp
        · exact hmagnitude _ _
    | negativeZero => decide
    | infinite negative => cases negative <;> decide
    | nan => decide

end Number

theorem NumericFamily.write_ne_empty (family : NumericFamily) (units : UnitTable) (x : Number) :
    family.write units x ≠ "" := by
  unfold NumericFamily.write
  simp only
  split
  · simp [Number.css_ne_empty]
  · split <;> simp [Number.css_ne_empty]

namespace Color

open Number

theorem channel_ne_empty (x : Number) : channel x ≠ "" := by
  unfold channel
  simp only
  split
  · exact css_ne_empty _
  · simp

/-! ### What an alpha stands for -/

variable {q : ℚ} {part : String} {a : Number}

/-- The opacity that an alpha stands for, if it is not full opacity. -/
def opacity? : Number → Option ℚ
  | .finite q =>
    if |q| = 1 ∨ 100 ≤ |q| then none
    else if 1 < |q| then some (|q| / 100)
    else some |q|
  | .negativeZero => some 0
  | .infinite _ | .nan => none

/-- **A part of a text carries an opacity:** full opacity if it is empty, and behind a slash, the
    opacity that its digits are rounded to. -/
def Carries (part : String) : Option ℚ → Prop
  | none => part = ""
  | some x => ∃ digits y, part = "/" ++ digits ∧ Decimal.read? digits = some y ∧
      Number.round y = Number.round x

/-- Only full opacity is not written. -/
theorem Carries.eq_empty_iff {o : Option ℚ} (h : Carries part o) : part = "" ↔ o = none := by
  cases o with
  | none => exact iff_of_true h rfl
  | some x =>
    obtain ⟨digits, _, rfl, -⟩ := h
    simp

theorem abs_finite (q : ℚ) : (Number.finite q).abs = .finite |q| := by
  show Number.finite (if q < 0 then -q else q) = _
  split
  · next h => rw [abs_of_neg h]
  · next h => rw [abs_of_nonneg (not_lt.mp h)]

/-- An alpha between one and a hundred is normalized to its hundredth, rounded. -/
theorem scale_hundredth {x : ℚ} (h : 1 < x) (h' : x < 100) :
    ∃ z, (Number.finite x).scale (mkRat 1 100) = .finite z ∧ 0 < z ∧
      Number.round z = Number.round (x / 100) := by
  have hx : 0 < x / 100 := by positivity
  have hrounds := rounds_of_pos hx
  obtain ⟨z, hz⟩ : ∃ z, roundMagnitude (x / 100).num.natAbs (x / 100).den = z := ⟨_, rfl⟩
  rw [hz] at hrounds
  have hnormal : (2 : ℚ) ^ (-1021 : Int) ≤ x / 100 :=
    calc (2 : ℚ) ^ (-1021 : Int) ≤ 2 ^ (-7 : Int) := zpow_le_zpow_right₀ one_le_two (by norm_num)
      _ = 1 / 128 := by norm_num
      _ ≤ x / 100 := by linarith
  have hnear := hrounds.near hnormal
  rw [abs_le] at hnear
  have hpos : 0 < z := by linarith
  refine ⟨z, ?_, hpos, round_eq_of_rounds hpos hx (hrounds.self hx hpos) hrounds⟩
  show Number.round (mkRat 1 100 * x) = _
  rw [Rat.mkRat_eq_div, show ((1 : Int) : ℚ) / (100 : Nat) * x = x / 100 by push_cast; ring]
  exact round_of_le_two hx hrounds (by linarith)

/-- What an alpha is normalized to. -/
theorem normalizeAlpha_finite (q : ℚ) :
    normalizeAlpha (.finite q) =
      if |q| = 1 ∨ 100 ≤ |q| then 0
      else if 1 < |q| then (Number.finite |q|).scale (mkRat 1 100)
      else .finite |q| := by
  unfold normalizeAlpha
  simp only [abs_finite, Bool.or_eq_true]
  exact if_congr (or_congr same_finite atLeast_finite) rfl (if_congr less_finite rfl rfl)

/-- What stands behind the channels of a colour function: nothing, or the opacity behind a slash. -/
def alphaPart (a : Number) : String := if alphaText a = "" then "" else "/" ++ alphaText a

theorem alphaPart_of_isZero (h : (normalizeAlpha a).isZero = true) : alphaPart a = "" := by
  unfold alphaPart alphaText
  simp only [if_pos h, if_true]

/-- A positive number that an alpha is normalized to is carried. -/
theorem carries_of_normalized {x z : ℚ} (h : normalizeAlpha a = .finite z) (hz : 0 < z)
    (hround : Number.round z = Number.round x) : Carries (alphaPart a) (some x) := by
  have htext : alphaText a = (Number.finite z).css := by
    unfold alphaText
    simp only [h]
    rw [if_neg (isZero_finite.not.mpr hz.ne')]
  obtain ⟨y, hread, hy⟩ := css_reads hz
  refine ⟨(Number.finite z).css, y, ?_, hread, hy.trans hround⟩
  unfold alphaPart
  rw [htext, if_neg (css_ne_empty _)]

/-- **What is written of an alpha carries the opacity that it stands for,** if it is not zero. -/
theorem alphaPart_carries (hnan : a ≠ .nan) (hzero : a.isZero = false) :
    Carries (alphaPart a) (opacity? a) := by
  cases a with
  | finite q =>
    have hne : q ≠ 0 := isZero_finite.not.mp (Bool.eq_false_iff.mp hzero)
    have hnormalized := normalizeAlpha_finite q
    -- Full, a percentage, or as it is: the three ranges that an alpha is normalized by.
    simp only [opacity?]
    by_cases hfull : |q| = 1 ∨ 100 ≤ |q|
    · rw [if_pos hfull] at hnormalized ⊢
      exact alphaPart_of_isZero (by rw [hnormalized]; rfl)
    · rw [if_neg hfull] at hnormalized ⊢
      by_cases hpercent : 1 < |q|
      · rw [if_pos hpercent] at hnormalized ⊢
        obtain ⟨z, hscale, hz, hround⟩ := scale_hundredth hpercent
          (lt_of_not_ge fun h => hfull (.inr h))
        exact carries_of_normalized (hnormalized.trans hscale) hz hround
      · rw [if_neg hpercent] at hnormalized ⊢
        exact carries_of_normalized hnormalized (abs_pos.mpr hne) rfl
  | negativeZero => cases hzero
  | infinite negative => exact alphaPart_of_isZero rfl
  | nan => exact absurd rfl hnan

/-- What is written of zero is nothing. -/
theorem alphaPart_zero (h : a.isZero = true) : alphaPart a = "" := by
  cases a with
  | finite q =>
    obtain rfl := isZero_finite.mp h
    rfl
  | negativeZero => rfl
  | infinite negative => cases negative <;> cases h
  | nan => cases h

/-! ### The texts of both functions -/

/-- A colour of a red, a green and a blue channel and an alpha. -/
def rgba (r g b a : Number) : Value :=
  .call "rgb" (.list [.number r, .number g, .number b, .number a]) false

/-- A colour of a hue, a saturation, a lightness and an alpha. -/
def hsla (h : Value) (s l a : Number) : Value :=
  .call "hsl" (.list [h, .number s, .number l, .number a]) false

end Color

namespace Conversion

open Color

variable (names : Names)

/-- A number of a category that is written by a function. -/
theorem run_written {c : Category} {write : Number → String}
    (h : Catalog.standard.categories.get? c = some (.numbers write)) (x : Number) :
    run ⟨.standard, names⟩ [] (.category c) (.number x) = pure (write x) := by
  rw [run_category_eq_shaped h rfl, shaped]
  rfl

variable {s : Setting} {a : Number} {fields : List (String × Value)} {spec : Field}
    {rest params : List Field}
  {pieces : List (Field × String)} {ambient ambient' ambient'' : Ambient}

/-- One field that is there, and all others. -/
theorem fieldTexts_cons {v : Value} {text : String} (hv : Dict.get? spec.name fields = some v)
    (hnull : v.isNull = false) (htext : run s [] spec.recipe v ambient = (.ok text, ambient'))
    (hrest : fieldTexts s rest fields ambient' = (.ok pieces, ambient'')) :
    fieldTexts s (spec :: rest) fields ambient = (.ok ((spec, text) :: pieces), ambient'') := by
  rw [fieldTexts_some hv, hnull, if_neg Bool.false_ne_true, stateful_bind_ok htext,
    stateful_bind_ok hrest]
  rfl

/-- The text of a call of a function with parameters, from the texts of its arguments. -/
theorem convert_call_params {function separator : String} {args : Value}
    (hd : s.catalog.descriptor? function = some (.ofParams function separator params))
    (hfields : (Descriptor.ofParams function separator params).fieldsFor params args = .ok fields)
    (hknown : unknownField? params fields = none)
    (hpieces : fieldTexts s params fields ambient = (.ok pieces, ambient')) :
    convert s .plain (.call function args false) ambient =
      (.ok (function ++ "(" ++ assemble separator pieces ++ ")"), ambient') := by
  -- The record of the arguments is joined first; the name and the brackets go around it.
  have hrecord : record s params separator fields ambient =
      (.ok (assemble separator pieces), ambient') := by
    rw [record, hknown]
    exact stateful_bind_ok hpieces _
  have hmapped : Convert.mapError ((Descriptor.ofParams function separator params).explain args)
      (record s params separator fields) ambient = (.ok (assemble separator pieces), ambient') := by
    unfold Convert.mapError
    rw [hrecord]
    rfl
  rw [convert_call]
  unfold Setting.call
  rw [call_eq]
  simp only [hd, Bool.false_and, Bool.false_eq_true, if_false,
    Descriptor.ofParams] at hfields hmapped ⊢
  simp only [hfields]
  rw [stateful_bind_ok hmapped]
  rfl

/-- Spaces between three texts, of which the first one may be missing, and what
    stands behind a slash. -/
theorem assemble_four {f₁ f₂ f₃ f₄ : Field} {t₁ t₂ t₃ : String} (ht₁ : f₁.token = none)
    (ht₂ : f₂.token = none) (ht₃ : f₃.token = none) (ht₄ : f₄.token = some "/") (h₂ : t₂ ≠ "")
    (h₃ : t₃ ≠ "") (t₄ : String) :
    assemble " " [(f₁, t₁), (f₂, t₂), (f₃, t₃), (f₄, t₄)] =
      (if t₁ = "" then "" else t₁ ++ " ") ++ t₂ ++ " " ++ t₃ ++
      (if t₄ = "" then "" else "/" ++ t₄) := by
  unfold assemble
  simp only [List.foldl, ht₁, ht₂, ht₃, ht₄, if_neg h₂, if_neg h₃]
  by_cases h₁ : t₁ = "" <;> by_cases h₄ : t₄ = "" <;> simp [h₁, h₂, h₄, String.append_assoc]

/-- An empty text is left out. -/
theorem assemble_cons_empty (separator : String) (f : Field) (pieces : List (Field × String)) :
    assemble separator ((f, "") :: pieces) = assemble separator pieces := rfl

/-- The alpha of a colour function is its last argument. -/
theorem fieldTexts_alpha (hv : Dict.get? "a" fields = some (.number a)) (ambient : Ambient) :
    fieldTexts ⟨.standard, names⟩ [(Field.ofCategory "a" .alpha).after "/"] fields ambient =
      (.ok [((Field.ofCategory "a" .alpha).after "/", alphaText a)], ambient) := by
  have htext : run ⟨.standard, names⟩ []
    ((Field.ofCategory "a" .alpha).after "/").recipe (.number a)
      ambient = (.ok (alphaText a), ambient) := by
    show run _ [] (.category .alpha) _ _ = _
    rw [run_written names rfl]
    rfl
  have hnone : fieldTexts ⟨.standard, names⟩ [] fields ambient = (.ok [], ambient) := by
    rw [fieldTexts]
    rfl
  exact fieldTexts_cons hv rfl htext hnone

/-- **The text of a colour by its channels.** -/
theorem rgba_text (r g b a : Number) (ambient : Ambient) :
    convert ⟨.standard, names⟩ .plain (rgba r g b a) ambient =
      (.ok ("rgb(" ++ channel r ++ " " ++ channel g ++ " " ++ channel b ++ alphaPart a ++ ")"),
        ambient) := by
  have hchannel : ∀ (name : String) (x : Number),
      run ⟨.standard, names⟩ [] (Field.ofCategory name .colorSeparation).recipe
      (.number x) ambient =
        (.ok (channel x), ambient) := by
    intro name x
    show run _ [] (.category .colorSeparation) _ _ = _
    rw [run_written names rfl]
    rfl
  -- The channels go through one category, and the alpha has its own token.
  have hpieces : fieldTexts ⟨.standard, names⟩
      [.ofCategory "r" .colorSeparation, .ofCategory "g" .colorSeparation,
        .ofCategory "b" .colorSeparation, (Field.ofCategory "a" .alpha).after "/"]
      [("r", .number r), ("g", .number g), ("b", .number b), ("a", .number a)] ambient =
        (.ok [(.ofCategory "r" .colorSeparation, channel r),
          (.ofCategory "g" .colorSeparation, channel g),
          (.ofCategory "b" .colorSeparation, channel b),
          ((Field.ofCategory "a" .alpha).after "/", alphaText a)], ambient) :=
    fieldTexts_cons rfl rfl (hchannel "r" r) (fieldTexts_cons rfl rfl (hchannel "g" g)
      (fieldTexts_cons rfl rfl (hchannel "b" b) (fieldTexts_alpha names rfl ambient)))
  unfold rgba
  rw [convert_call_params rfl rfl rfl hpieces,
    assemble_four rfl rfl rfl rfl (channel_ne_empty g) (channel_ne_empty b),
    if_neg (channel_ne_empty r)]
  simp only [alphaPart, String.append_assoc]
  rfl

/-- The text of a number of a family. -/
theorem run_family {c : Category} {family : NumericFamily}
    (h : Catalog.standard.categories.get? c = some (.numeric family)) (x : Number)
    (ambient : Ambient) :
    run ⟨.standard, names⟩ [] (.category c) (.number x) ambient =
      (.ok (family.write ambient.units x), ambient) := by
  rw [run_category_eq_shaped h rfl, shaped]
  rfl

/-- **The text of a colour by hue, saturation and lightness,** if the hue has one. -/
theorem hsla_text {h : Value} {hue : String} {ambient ambient' : Ambient} (s l a : Number)
    (hhue : Setting.category ⟨.standard, names⟩ .angle h ambient = (.ok hue, ambient')) :
    convert ⟨.standard, names⟩ .plain (hsla h s l a) ambient =
      (.ok ("hsl(" ++ (if hue = "" then "" else hue ++ " ") ++
        NumericFamily.percent.write ambient'.units s ++ " " ++
          NumericFamily.percent.write ambient'.units l ++ alphaPart a ++ ")"), ambient') := by
  have hpercent : ∀ (name : String) (x : Number),
      run ⟨.standard, names⟩ [] (Field.ofCategory name .percent).recipe (.number x) ambient' =
        (.ok (NumericFamily.percent.write ambient'.units x), ambient') :=
    fun name x => run_family names rfl x ambient'
  have hrest : fieldTexts ⟨.standard, names⟩
      [.ofCategory "s" .percent, .ofCategory "l" .percent, (Field.ofCategory "a" .alpha).after "/"]
      [("h", h), ("s", .number s), ("l", .number l), ("a", .number a)] ambient' =
        (.ok [(.ofCategory "s" .percent, NumericFamily.percent.write ambient'.units s),
          (.ofCategory "l" .percent, NumericFamily.percent.write ambient'.units l),
          ((Field.ofCategory "a" .alpha).after "/", alphaText a)], ambient') :=
    fieldTexts_cons rfl rfl (hpercent "s" s) (fieldTexts_cons rfl rfl (hpercent "l" l)
      (fieldTexts_alpha names rfl ambient'))
  obtain ⟨pieces, hpieces, hsame⟩ : ∃ pieces, fieldTexts ⟨.standard, names⟩
      [.ofCategory "h" .angle, .ofCategory "s" .percent, .ofCategory "l" .percent,
        (Field.ofCategory "a" .alpha).after "/"]
      [("h", h), ("s", .number s), ("l", .number l), ("a", .number a)] ambient =
        (.ok pieces, ambient') ∧
      assemble " " pieces = assemble " "
        [(.ofCategory "h" .angle, hue),
          (.ofCategory "s" .percent, NumericFamily.percent.write ambient'.units s),
          (.ofCategory "l" .percent, NumericFamily.percent.write ambient'.units l),
          ((Field.ofCategory "a" .alpha).after "/", alphaText a)] := by
    cases hnull : h.isNull with
    | true =>
      -- No value has an empty text, and its field is left out.
      obtain rfl : h = .null := by
        cases h <;> first | rfl | cases hnull
      have hempty : Setting.category ⟨.standard, names⟩ .angle .null ambient =
        (.ok "", ambient) := by
        show run _ [] (.category .angle) _ _ = _
        rw [run_category_eq_shaped rfl rfl, shaped]
        rfl
      rw [hempty] at hhue
      cases hhue
      refine ⟨_, ?_, (assemble_cons_empty _ _ _).symm⟩
      rw [fieldTexts_some (v := .null) rfl, if_pos hnull]
      exact hrest
    | false => exact ⟨_, fieldTexts_cons rfl hnull hhue hrest, rfl⟩
  unfold hsla
  rw [convert_call_params rfl rfl rfl hpieces, hsame, assemble_four rfl rfl rfl rfl
    (NumericFamily.write_ne_empty _ _ s) (NumericFamily.write_ne_empty _ _ l)]
  simp only [alphaPart, String.append_assoc]
  rfl

end Conversion

namespace Color

/-- **The text of a colour function carries the opacity that its alpha stands for:** behind the
    channels there is a part for every opacity below full opacity, with a number that is rounded to
    it, and none for full opacity. An alpha of zero, which stands for no opacity, is
    written like full opacity. -/
theorem opacity_carried (names : Names) (r g b : Number) {a : Number} (hnan : a ≠ .nan) :
    ∃ part,
      (a.isZero = false →
        Carries part (opacity? a) ∧ (part = "" ↔ opacity? a = none)) ∧
      (a.isZero = true → part = "") ∧
      (∀ ambient, convert ⟨.standard, names⟩ .plain (rgba r g b a) ambient =
        (.ok ("rgb(" ++ channel r ++ " " ++ channel g ++ " " ++ channel b ++ part ++ ")"), ambient))
        ∧
      ∀ h hue s l ambient ambient',
        Setting.category ⟨.standard, names⟩ .angle h ambient = (.ok hue, ambient') →
        convert ⟨.standard, names⟩ .plain (hsla h s l a) ambient =
          (.ok ("hsl(" ++ (if hue = "" then "" else hue ++ " ") ++
            NumericFamily.percent.write ambient'.units s ++ " " ++
              NumericFamily.percent.write ambient'.units l ++ part ++ ")"), ambient') := by
  refine ⟨alphaPart a, fun hzero => ⟨alphaPart_carries hnan hzero, ?_⟩, alphaPart_zero,
    Conversion.rgba_text names r g b a, fun h hue s l ambient ambient' hhue =>
      Conversion.hsla_text names s l a hhue⟩
  exact (alphaPart_carries hnan hzero).eq_empty_iff

/-- The opacity of a half, as a percentage, behind three channels and behind a hue. -/
theorem opacity_carried_of_half :
    (50 : Number) ≠ .nan ∧ ∃ part, Carries part (some (1 / 2)) ∧
      (convert ⟨.standard, fun _ => none⟩ .plain (rgba 255 0 0 50) .initial).1 =
        .ok ("rgb(" ++ "255" ++ " " ++ "0" ++ " " ++ "0" ++ part ++ ")") ∧
      (convert ⟨.standard, fun _ => none⟩ .plain (hsla (.number 200) 40 60 50) .initial).1 =
        .ok ("hsl(" ++ "200deg " ++ "40%" ++ " " ++ "60%" ++ part ++ ")") := by
  have hnan : (50 : Number) ≠ .nan := nofun
  have hopacity : opacity? 50 = some (1 / 2) := by
    show opacity? (.finite 50) = _
    norm_num [opacity?]
  have hhue : Setting.category ⟨.standard, fun _ => none⟩ .angle (.number 200) .initial =
      (.ok "200deg", .initial) := by
    show Conversion.run _ [] (.category .angle) _ _ = _
    rw [Conversion.run_family _ rfl,
      show NumericFamily.angle.write Ambient.initial.units 200 = "200deg" by
      decide +kernel]
  obtain ⟨part, hcarries, -, hrgba, hhsla⟩ :=
    opacity_carried (fun _ => none) 255 0 0 hnan
  have hchannels : channel 255 = "255" ∧ channel 0 = "0" := by decide +kernel
  have hpercents : NumericFamily.percent.write Ambient.initial.units 40 = "40%" ∧
      NumericFamily.percent.write Ambient.initial.units 60 = "60%" := by decide +kernel
  refine ⟨hnan, part, hopacity ▸ (hcarries rfl).1, ?_, ?_⟩
  · rw [hrgba, hchannels.1, hchannels.2]
  · rw [hhsla (.number 200) "200deg" 40 60 _ _ hhue, hpercents.1, hpercents.2]
    rfl

/-- **An alpha of zero is written like full opacity,** though it stands for no opacity. -/
theorem opacity_lost :
    opacity? 0 = some 0 ∧
      (convert ⟨.standard, fun _ => none⟩ .plain (rgba 255 0 0 0) .initial).1 = .ok "rgb(255 0 0)" ∧
      ¬ ∃ part, Carries part (opacity? 0) ∧
        (convert ⟨.standard, fun _ => none⟩ .plain (rgba 255 0 0 0) .initial).1 =
          .ok ("rgb(" ++ "255" ++ " " ++ "0" ++ " " ++ "0" ++ part ++ ")") := by
  have hopacity : opacity? 0 = some 0 := by
    show opacity? (.finite 0) = _
    norm_num [opacity?]
  have htext : (convert ⟨.standard, fun _ => none⟩ .plain (rgba 255 0 0 0) .initial).1 =
      .ok "rgb(255 0 0)" := by
    rw [Conversion.rgba_text]
    decide +kernel
  refine ⟨hopacity, htext, ?_⟩
  rintro ⟨part, hcarries, hpart⟩
  obtain ⟨digits, _, rfl, -⟩ := hopacity ▸ hcarries
  rw [htext, Except.ok.injEq] at hpart
  -- Behind the channels there is no slash.
  have hchars := congrArg String.toList hpart
  simp at hchars

end Color

end StyleBook
