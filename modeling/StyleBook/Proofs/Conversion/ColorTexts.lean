import StyleBook.Proofs.Conversion.Opacity

namespace StyleBook

/-!
# What the text of a colour says

The text of a colour number has six hexadecimal digits for red, green and blue, and two more for the
opacity if the number has a fraction. The opposite number has the complementary colour. An alpha
takes the place of the fraction and leaves the six digits as they are, but for two exceptions:
rounding may carry an opacity just below one into them, and a sign before nothing at all is lost.

* `Color.read?` — the colour and the opacity that a text denotes; `Color.read?_text` — it reads the
  texts of colour numbers;
* `Color.rgb_finite`, `Color.alphaByte?_finite` — what is written of a number;
* `Color.text_says` — hence the text of a number, of its opposite, and of numbers that differ by
  multiples of `2 ^ 24`;
* `Color.rgb?_withAlpha_iff`, `Color.rgb_kept` — which colours an alpha leaves as they are;
* `Color.inversion_lost` — and one that it does not.
-/

/-! ### The digits of a colour -/

namespace Color

open Number

/-- The value of a lower-case hexadecimal digit. -/
def digitValue? (c : Char) : Option Nat :=
  if '0' ≤ c ∧ c ≤ '9' then some (c.toNat - '0'.toNat)
  else if 'a' ≤ c ∧ c ≤ 'f' then some (10 + (c.toNat - 'a'.toNat))
  else none

/-- The number that lower-case hexadecimal digits denote. -/
def value? (digits : List Char) : Option Nat :=
  digits.foldlM (fun n c => (digitValue? c).map (16 * n + ·)) 0

/-- **The colour that a text denotes:** behind a hash six lower-case hexadecimal digits for red,
    green and blue, and two more for the opacity, or no more. -/
def read? (text : String) : Option (Nat × Option Nat) :=
  match text.toList with
  | '#' :: digits =>
    if digits.length = 6 then (value? digits).map (·, none)
    else if digits.length = 8 then do
      return (← value? (digits.take 6), some (← value? (digits.drop 6)))
    else none
  | _ => none

theorem digitValue?_hexDigit {n : Nat} (h : n < 16) : digitValue? (hexDigit n) = some n := by
  interval_cases n <;> rfl

theorem length_hexDigits (places n : Nat) : (hexDigits places n).length = places := by
  induction places generalizing n with
  | zero => rfl
  | succ places ih => simp only [hexDigits, List.length_append, ih, List.length_singleton]

/-- **Hexadecimal digits are read back.** -/
theorem value?_hexDigits (places n : Nat) : value?
    (hexDigits places n) = some (n % 16 ^ places) := by
  induction places generalizing n with
  | zero => simp [hexDigits, value?, Nat.mod_one]
  | succ places ih =>
    have hdigit := digitValue?_hexDigit (Nat.mod_lt n (by norm_num : 0 < 16))
    have hsplit : n % 16 ^ (places + 1) = 16 * (n / 16 % 16 ^ places) + n % 16 := by
      rw [pow_succ, mul_comm, Nat.mod_mul, add_comm]
    rw [hexDigits]
    unfold value? at ih ⊢
    rw [List.foldlM_append, ih, hsplit]
    simp only [List.foldlM_cons, List.foldlM_nil, hdigit]
    rfl

/-! ### The parts of the text -/

variable {q : ℚ}

/-- The integer part of what a word keeps. -/
theorem integerPart_finite (h : 0 ≤ q) (hlt : q < 2 ^ 63) : integerPart (.finite q) = ⌊q⌋₊ := by
  have hfloor : ⌊q⌋₊ < 2 ^ 63 := by
    rw [Nat.floor_lt h]
    exact_mod_cast hlt
  show min (truncRat q).toNat (Nat.pow 2 63 - 1) = _
  rw [truncRat_of_nonneg h, Int.floor_toNat, Nat.pow_eq]
  omega

/-- **The red, green and blue of a colour number:** the last 24 digits of its integer part, or their
    complement. -/
theorem rgb_finite (hlt : |q| < 2 ^ 63) :
    rgb (.finite q) = if q < 0 then 2 ^ 24 - 1 - ⌊|q|⌋₊ % 2 ^ 24 else ⌊|q|⌋₊ % 2 ^ 24 := by
  unfold rgb
  simp only [abs_finite, integerPart_finite (abs_nonneg q) hlt]
  exact if_congr less_finite rfl rfl

theorem rgb_lt (hlt : |q| < 2 ^ 63) : rgb (.finite q) < 2 ^ 24 := by
  have := Nat.mod_lt ⌊|q|⌋₊ (by norm_num : 0 < 2 ^ 24)
  rw [rgb_finite hlt]
  split <;> omega

/-- A fraction in steps of 1/255. -/
def byte (fraction : ℚ) : Nat := integerPart ((Number.finite fraction).scale 255).nearest

/-- **The opacity of a colour number** is that of its fraction, whatever the sign. -/
theorem alphaByte?_finite (q : ℚ) :
    alphaByte? (.finite q) = if 0 < Int.fract |q| then some (byte (Int.fract |q|)) else none := by
  unfold alphaByte?
  have hfract : (Number.finite |q|).fract = .finite (Int.fract |q|) := by
    show Number.finite (|q| - truncRat |q|) = _
    rw [truncRat_of_nonneg (abs_nonneg q), Int.self_sub_floor]
  simp only [abs_finite, hfract]
  exact if_congr less_finite rfl rfl

/-- There are steps from zero to 255. -/
theorem byte_lt {fraction : ℚ} (hpos : 0 < fraction) (hlt : fraction < 1) :
    byte fraction < 256 := by
  -- The product with 255 stays in the range, and adding a half and rounding down stays below 256.
  obtain ⟨y, hy, hlow, hhigh⟩ := round_between (x := 255 * fraction) (e := 0) (m := 0) (n := 255)
    (k := 8) (by positivity) (by linarith) (by norm_num) (by norm_num) (by simpa using hpos.le)
    (by push_cast; linarith)
  have hnonneg : 0 ≤ y := by simpa using hlow
  have hhigh' : y ≤ 255 := by simpa using hhigh
  have hscale : (Number.finite fraction).scale 255 = .finite y := hy
  have hfloor : 0 ≤ ⌊y + 1 / 2⌋ ∧ ⌊y + 1 / 2⌋ < 256 := by
    constructor
    · exact Int.floor_nonneg.mpr (by linarith)
    · rw [Int.floor_lt]
      push_cast
      linarith
  have hnearest : (Number.finite y).nearest = .finite ⌊y + 1 / 2⌋ := by
    show ofRounded (y < 0) (nearestRat y) = _
    unfold ofRounded
    rw [nearestRat_of_nonneg hnonneg, if_neg (by simp [not_lt.mpr hnonneg])]
  have hcast : (0 : ℚ) ≤ ⌊y + 1 / 2⌋ ∧ (⌊y + 1 / 2⌋ : ℚ) < 256 := by exact_mod_cast hfloor
  unfold byte
  rw [hscale, hnearest, integerPart_finite hcast.1 (by linarith), Nat.floor_lt hcast.1]
  exact hcast.2

/-- **The text of a colour number is read back.** -/
theorem read?_text (hlt : |q| < 2 ^ 63) :
    read? (text (.finite q)) = some (rgb (.finite q), alphaByte? (.finite q)) := by
  have hrgb : value? (hexDigits 6 (rgb (.finite q))) = some (rgb (.finite q)) := by
    rw [value?_hexDigits, Nat.mod_eq_of_lt ((rgb_lt hlt).trans_eq (by norm_num))]
  have hsix := length_hexDigits 6 (rgb (.finite q))
  -- Six digits without an opacity, eight digits with one; the length tells which.
  unfold text read?
  rw [String.toList_ofList]
  cases hbyte : alphaByte? (.finite q) with
  | none =>
    simp only [Option.map_none, Option.getD_none, List.append_nil, hsix, if_true, hrgb,
      Option.map_some]
  | some opacity =>
    have hopacity : value? (hexDigits 2 opacity) = some opacity := by
      rw [alphaByte?_finite] at hbyte
      split at hbyte
      · next hpos =>
        cases hbyte
        rw [value?_hexDigits,
          Nat.mod_eq_of_lt ((byte_lt hpos (Int.fract_lt_one _)).trans_eq (by norm_num))]
      · cases hbyte
    -- With two more digits the text has eight, of which the first six are the colour.
    have height : (hexDigits 6 (rgb (.finite q)) ++ hexDigits 2 opacity).length = 8 := by
      rw [List.length_append, hsix, length_hexDigits]
    simp only [Option.map_some, Option.getD_some, List.cons_append, height,
      if_neg (by norm_num : ¬ 8 = 6),
      if_true, List.take_left' hsix, List.drop_left' hsix, hrgb, hopacity]
    rfl

/-! ### What the text says -/

/-- A number has a fraction if it is not an integer. -/
theorem fract_abs_pos_iff : 0 < Int.fract |q| ↔ ¬ ∃ i : ℤ, q = i := by
  rw [(Int.fract_nonneg _).lt_iff_ne', not_iff_not, Int.fract_eq_zero_iff]
  constructor
  · rintro ⟨i, hi⟩
    rcases abs_choice q with h | h
    · exact ⟨i, by rw [hi, h]⟩
    · exact ⟨-i, by rw [Int.cast_neg, hi, h, neg_neg]⟩
  · rintro ⟨i, rfl⟩
    exact ⟨|i|, Int.cast_abs⟩

/-- The digits of a positive number. -/
theorem rgb_of_pos (hpos : 0 < q) (hlt : q < 2 ^ 63) : rgb (.finite q) = ⌊q⌋₊ % 2 ^ 24 := by
  rw [rgb_finite (by rwa [abs_of_pos hpos]), if_neg hpos.not_gt, abs_of_pos hpos]

/-- The digits of a negative number. -/
theorem rgb_neg_of_pos (hpos : 0 < q) (hlt : q < 2 ^ 63) :
    rgb (.finite (-q)) = 2 ^ 24 - 1 - ⌊q⌋₊ % 2 ^ 24 := by
  rw [rgb_finite (by rwa [abs_neg, abs_of_pos hpos]), if_pos (neg_lt_zero.mpr hpos), abs_neg,
    abs_of_pos hpos]

/-- **Numbers of opposite sign have complementary digits.** -/
theorem rgb_add_neg (hne : q ≠ 0) (hlt : |q| < 2 ^ 63) :
    rgb (.finite q) + rgb (.finite (-q)) = 0xFFFFFF := by
  rcases hne.lt_or_gt with hneg | hpos
  · rw [abs_of_neg hneg] at hlt
    have := rgb_of_pos (neg_pos.mpr hneg) hlt
    have := rgb_neg_of_pos (neg_pos.mpr hneg) hlt
    rw [neg_neg] at this
    omega
  · rw [abs_of_pos hpos] at hlt
    have := rgb_of_pos hpos hlt
    have := rgb_neg_of_pos hpos hlt
    omega

/-- **Multiples of `2 ^ 24` do not show.** -/
theorem text_add_mul (hpos : 0 < q) (k : Nat) (hlt : q + k * 2 ^ 24 < 2 ^ 63) :
    text (.finite (q + k * 2 ^ 24)) = text (.finite q) := by
  have hmul : (0 : ℚ) ≤ k * 2 ^ 24 := by positivity
  have hcast : q + k * 2 ^ 24 = q + (k * 2 ^ 24 : Nat) := by push_cast; rfl
  have hrgb : rgb (.finite (q + k * 2 ^ 24)) = rgb (.finite q) := by
    rw [rgb_of_pos (by linarith) hlt, rgb_of_pos hpos (by linarith), hcast,
      Nat.floor_add_natCast hpos.le, Nat.add_mul_mod_self_right]
  have hopacity : alphaByte? (.finite (q + k * 2 ^ 24)) = alphaByte? (.finite q) := by
    rw [alphaByte?_finite, alphaByte?_finite, abs_of_pos (by linarith), abs_of_pos hpos, hcast,
      Int.fract_add_natCast]
  unfold text
  rw [hrgb, hopacity]

/-- **The text of a colour number** has six hexadecimal digits, and two more exactly if the number
    is no integer. Those of the number with the other sign are complementary, with the same opacity.
    Those of a positive number are the last 24 binary digits of its integer part, and its text does
    not change with multiples of `2 ^ 24`. -/
theorem text_says {q : ℚ} (hne : q ≠ 0) (hlt : |q| < 2 ^ 63) :
    ∃ digits opacity, read? (text (.finite q)) = some (digits, opacity) ∧
      (opacity.isSome = true ↔ ¬ ∃ i : ℤ, q = i) ∧
      (∃ digits', read? (text (Number.finite q).neg) = some (digits', opacity) ∧
        digits + digits' = 0xFFFFFF) ∧
      (0 < q → (digits : ℤ) = ⌊q⌋ % 2 ^ 24 ∧
        ∀ k : Nat, q + k * 2 ^ 24 < 2 ^ 63 →
          text (.finite (q + k * 2 ^ 24)) = text (.finite q)) := by
  have hneg : (Number.finite q).neg = .finite (-q) := if_neg hne
  have hlt' : |-q| < 2 ^ 63 := by rwa [abs_neg]
  refine ⟨_, _, read?_text hlt, ?_, ⟨_, ?_, rgb_add_neg hne hlt⟩,
    fun hpos => ⟨?_, text_add_mul hpos⟩⟩
  · rw [← fract_abs_pos_iff, alphaByte?_finite]
    split <;> simp [*]
  · rw [hneg, read?_text hlt', alphaByte?_finite, alphaByte?_finite, abs_neg]
  · rw [abs_of_pos hpos] at hlt
    rw [rgb_of_pos hpos hlt]
    push_cast
    rw [Int.natCast_floor_eq_floor hpos.le]

/-- A number with a fraction and more than 24 binary digits before the point. -/
theorem text_says_of_long :
    (0x123456789 + 1 / 2 : ℚ) ≠ 0 ∧ |(0x123456789 + 1 / 2 : ℚ)| < 2 ^ 63 ∧
      ∃ digits opacity, read? (text (.finite (0x123456789 + 1 / 2))) = some (digits, opacity) ∧
        opacity.isSome = true ∧ digits = 0x456789 ∧
        (∃ digits', read? (text (Number.finite (0x123456789 + 1 / 2)).neg) =
          some (digits', opacity) ∧
          digits' = 0xBA9876) ∧
        text (.finite (0x123456789 + 1 / 2 + (3 : Nat) * 2 ^ 24)) =
          text (.finite (0x123456789 + 1 / 2)) := by
  have hpos : (0 : ℚ) < 0x123456789 + 1 / 2 := by norm_num
  have hlt : |(0x123456789 + 1 / 2 : ℚ)| < 2 ^ 63 := by
    rw [abs_of_pos hpos]
    norm_num
  have hfraction : ¬ ∃ i : ℤ, (0x123456789 + 1 / 2 : ℚ) = i := by
    rw [← fract_abs_pos_iff, abs_of_pos hpos]
    norm_num
  obtain ⟨digits, opacity, hread, hopacity, ⟨digits', hread', hsum⟩, hpositive⟩ :=
    text_says hpos.ne' hlt
  obtain ⟨hdigits, hmultiple⟩ := hpositive hpos
  have hfloor : ⌊(0x123456789 + 1 / 2 : ℚ)⌋ % 2 ^ 24 = 0x456789 := by norm_num
  rw [hfloor] at hdigits
  exact ⟨hpos.ne', hlt, digits, opacity, hread, hopacity.mpr hfraction, by omega,
    ⟨digits', hread', by omega⟩, hmultiple 3 (by norm_num)⟩

/-! ### Another opacity -/

/-- The red, green and blue that a text denotes. -/
def rgb? (text : String) : Option Nat := (read? text).map Prod.fst

theorem rgb?_text (hlt : |q| < 2 ^ 63) : rgb? (text (.finite q)) = some (rgb (.finite q)) := by
  unfold rgb?
  rw [read?_text hlt]
  rfl

variable {a : Number} {z : ℚ} {m : Nat}

/-- **What an alpha is normalized to** is a number from zero to one. -/
theorem normalizeAlpha_range (hnan : a ≠ .nan) :
    ∃ z : ℚ, normalizeAlpha a = .finite z ∧ 0 ≤ z ∧ z ≤ 1 := by
  cases a with
  | finite q =>
    rw [normalizeAlpha_finite]
    -- An alpha of one or of a hundred and more is full, one above one is a percentage.
    by_cases hfull : |q| = 1 ∨ 100 ≤ |q|
    · rw [if_pos hfull]
      exact ⟨0, rfl, le_rfl, zero_le_one⟩
    · rw [if_neg hfull]
      rw [not_or, not_le] at hfull
      by_cases hpercent : 1 < |q|
      · rw [if_pos hpercent]
        have hhundredth : mkRat 1 100 * |q| = |q| / 100 := by
          rw [Rat.mkRat_eq_div]
          push_cast
          ring
        obtain ⟨z, hz, hlow, hhigh⟩ := round_between (x := |q| / 100) (k := 0) (e := 0) (m := 0)
          (n := 1) (by positivity) (by linarith) (by norm_num) (by norm_num) (by simp; positivity)
          (by push_cast; linarith)
        refine ⟨z, ?_, by simpa using hlow, by simpa using hhigh⟩
        rw [← hz, ← hhundredth]
        rfl
      · rw [if_neg hpercent]
        exact ⟨|q|, rfl, abs_nonneg q, not_lt.mp hpercent⟩
  | negativeZero => exact ⟨0, rfl, le_rfl, zero_le_one⟩
  | infinite negative => exact ⟨0, rfl, le_rfl, zero_le_one⟩
  | nan => exact absurd rfl hnan

/-- **The sum of a colour's integer part and an opacity** stays between two neighbours. -/
theorem round_sum (hm : m < 2 ^ 24) (hz : 0 ≤ z) (hz' : z ≤ 1) :
    ∃ s, Number.round (m + z) = .finite s ∧ m ≤ s ∧ s ≤ m + 1 := by
  have hm' : (m : ℚ) < 2 ^ 24 := by exact_mod_cast hm
  have hnonneg : (0 : ℚ) ≤ m := Nat.cast_nonneg m
  rcases (add_nonneg hnonneg hz).eq_or_lt with hzero | hpos
  · exact ⟨0, by rw [← hzero]; rfl, by linarith, by linarith⟩
  · obtain ⟨s, hs, hlow, hhigh⟩ := round_between (m := m) (n := m + 1) (e := 0) (k := 25) hpos
      (by linarith) (by norm_num) (by norm_num) (by simpa using hz) (by simpa using hz')
    exact ⟨s, hs, by simpa using hlow, by simpa using hhigh⟩

/-- It is not carried if the opacity is a little below one. -/
theorem round_sum_lt (hm : m < 2 ^ 24) (hz : 0 ≤ z) (hz' : z ≤ 1 - 2 ^ (-29 : Int)) :
    Number.round (m + z) ≠ .finite (m + 1) := by
  have hm' : (m : ℚ) + 1 ≤ 2 ^ 24 := by exact_mod_cast hm
  have hnonneg : (0 : ℚ) ≤ m := Nat.cast_nonneg m
  have hstep : (0 : ℚ) < 2 ^ (-29 : Int) := by positivity
  rcases (add_nonneg hnonneg hz).eq_or_lt with hzero | hpos
  · rw [← hzero, round_zero, Ne, finite.injEq]
    linarith
  · have hend : (((m + 1) * 2 ^ 29 - 1 : Nat) : ℚ) * 2 ^ (-29 : Int) = m + 1 - 2 ^ (-29 : Int) := by
      rw [Nat.cast_sub (by omega)]
      push_cast
      rw [sub_mul, mul_assoc, one_mul]
      norm_num
    obtain ⟨s, hs, -, hhigh⟩ := round_between (m := 0) (n := (m + 1) * 2 ^ 29 - 1) (e := -29)
      (k := 24) hpos (by linarith) (by norm_num) (by norm_num) (by simpa using hpos.le)
      (by rw [hend]; linarith)
    rw [hs, Ne, finite.injEq]
    rw [hend] at hhigh
    linarith

/-- It is zero exactly if nothing is added to nothing. -/
theorem round_sum_eq_zero_iff (hz : 0 ≤ z) (hnumber : z = 0 ∨ 2 ^ (-1074 : Int) ≤ z) :
    Number.round (m + z) = .finite 0 ↔ m = 0 ∧ z = 0 := by
  constructor
  · intro h
    have hbelow : (m : ℚ) + z < 2 ^ (-1074 : Int) := lt_of_not_ge fun hge => round_ne_zero hge h
    have hone : (2 : ℚ) ^ (-1074 : Int) < 1 := zpow_lt_one_of_neg₀ one_lt_two (by norm_num)
    have hm : (m : ℚ) < 1 := by linarith
    have hnonneg : (0 : ℚ) ≤ m := Nat.cast_nonneg m
    exact ⟨Nat.lt_one_iff.mp (by exact_mod_cast hm), hnumber.resolve_right (by linarith)⟩
  · rintro ⟨rfl, rfl⟩
    rw [Nat.cast_zero, add_zero, round_zero]

theorem floor_abs_lt {c : ℚ} (hc : |c| < 2 ^ 24) : ⌊|c|⌋₊ < 2 ^ 24 := by
  rw [Nat.floor_lt (abs_nonneg c)]
  exact_mod_cast hc

/-- The colour with an opacity. -/
theorem withAlpha_finite {c s : ℚ} (ha : normalizeAlpha a = .finite z)
    (hs : Number.round (⌊|c|⌋₊ + z) = .finite s) :
    withAlpha (.finite c) a = if c < 0 then (Number.finite s).neg else .finite s := by
  have htrunc : (Number.finite |c|).trunc = .finite ⌊|c|⌋₊ := by
    show ofRounded (|c| < 0) (truncRat |c|) = _
    unfold ofRounded
    rw [truncRat_of_nonneg (abs_nonneg c), if_neg (by simp [not_lt.mpr (abs_nonneg c)]),
      ← natCast_floor_eq_intCast_floor (abs_nonneg c)]
  have hsum : (Number.finite |c|).trunc.add (normalizeAlpha a) = .finite s := by
    rw [htrunc, ha]
    exact hs
  unfold withAlpha
  simp only [abs_finite, hsum]
  exact if_congr less_finite rfl rfl

/-- **The last 24 binary digits of the sum** are those of the colour exactly if
    the sum is not carried. -/
theorem floor_mod_eq_iff {s : ℚ} (hm : m < 2 ^ 24) (hlow : m ≤ s) (hhigh : s ≤ m + 1) :
    ⌊s⌋₊ % 2 ^ 24 = m ↔ s ≠ m + 1 := by
  constructor
  · rintro h rfl
    rw [← Nat.cast_add_one, Nat.floor_natCast] at h
    omega
  · intro h
    have hfloor : ⌊s⌋₊ = m := (Nat.floor_eq_iff ((Nat.cast_nonneg m).trans hlow)).mpr
      ⟨hlow, lt_of_le_of_ne hhigh h⟩
    rw [hfloor, Nat.mod_eq_of_lt hm]

/-- **When another opacity leaves the digits as they are:** the sum is not carried, and it does not
    vanish behind the sign of an inverted colour. -/
theorem rgb?_withAlpha_iff {c s : ℚ} (hc : |c| < 2 ^ 24) (ha : normalizeAlpha a = .finite z)
    (hs : Number.round (⌊|c|⌋₊ + z) = .finite s) (hlow : ⌊|c|⌋₊ ≤ s) (hhigh : s ≤ ⌊|c|⌋₊ + 1) :
    rgb? (text (withAlpha (.finite c) a)) = rgb? (text (.finite c)) ↔
      s ≠ ⌊|c|⌋₊ + 1 ∧ (c < 0 → s ≠ 0) := by
  have hm := floor_abs_lt hc
  have hcolor : rgb? (text (.finite c)) = some (if c < 0 then 2 ^ 24 - 1 - ⌊|c|⌋₊ else ⌊|c|⌋₊) := by
    rw [rgb?_text (by linarith), rgb_finite (by linarith), Nat.mod_eq_of_lt hm]
  have hkept := floor_mod_eq_iff hm hlow hhigh
  rw [withAlpha_finite ha hs, hcolor]
  generalize ⌊|c|⌋₊ = m at *
  have hm' : (m : ℚ) + 1 ≤ 2 ^ 24 := by exact_mod_cast hm
  -- An inverted colour is written from the other end, so its digits change only as those of the
  -- sum.
  have hnonneg : 0 ≤ s := (Nat.cast_nonneg m).trans hlow
  by_cases hneg : c < 0
  · rw [if_pos hneg, if_pos hneg, forall_prop_of_true hneg]
    by_cases hzero : s = 0
    · -- What vanishes is written without a sign.
      have htext : rgb? (text (Number.finite 0).neg) = some 0 := by decide +kernel
      subst hzero
      rw [htext, Option.some.injEq, ne_self_iff_false, and_false, iff_false]
      have hm0 : m = 0 := by exact_mod_cast le_antisymm hlow (Nat.cast_nonneg m)
      omega
    · have hpos : 0 < s := lt_of_le_of_ne hnonneg (Ne.symm hzero)
      have hs' : (Number.finite s).neg = .finite (-s) := if_neg hzero
      have hmod := Nat.mod_lt ⌊s⌋₊ (by norm_num : 0 < 2 ^ 24)
      rw [hs', rgb?_text (by rw [abs_neg, abs_of_pos hpos]; linarith),
        rgb_neg_of_pos hpos (by linarith),
        Option.some.injEq, and_iff_left hzero, ← hkept]
      omega
  · have habs : |s| = s := abs_of_nonneg hnonneg
    have hs' : |s| < 2 ^ 63 := by linarith
    rw [if_neg hneg, if_neg hneg, forall_prop_of_false hneg, and_true,
      rgb?_text hs', rgb_finite hs',
      if_neg (not_lt.mpr hnonneg), habs, Option.some.injEq, hkept]

/-- **Another opacity leaves the digits of a colour as they are,** unless rounding carries it into
    them or nothing is left of an inverted colour that stands behind its sign. So the digits are
    kept for all opacities but for the last steps below one, except that a colour between minus one
    and zero is no longer inverted if its opacity is zero or full. -/
theorem rgb_kept {c : ℚ} (hc : |c| < 2 ^ 24) {a : Number} (hnan : a ≠ .nan) :
    ∃ z : ℚ, normalizeAlpha a = .finite z ∧ 0 ≤ z ∧ z ≤ 1 ∧
      (rgb? (text (withAlpha (.finite c) a)) = rgb? (text (.finite c)) ↔
        Number.round (⌊|c|⌋₊ + z) ≠ .finite (⌊|c|⌋₊ + 1) ∧
          (c < 0 → Number.round (⌊|c|⌋₊ + z) ≠ .finite 0)) ∧
      (z ≤ 1 - 2 ^ (-29 : Int) → (z = 0 ∨ 2 ^ (-1074 : Int) ≤ z) →
        (rgb? (text (withAlpha (.finite c) a)) = rgb? (text (.finite c)) ↔
          ¬ (-1 < c ∧ c < 0 ∧ z = 0))) := by
  have hm := floor_abs_lt hc
  obtain ⟨z, ha, hz, hz'⟩ := normalizeAlpha_range hnan
  obtain ⟨s, hs, hlow, hhigh⟩ := round_sum hm hz hz'
  have hiff := rgb?_withAlpha_iff hc ha hs hlow hhigh
  refine ⟨z, ha, hz, hz', ?_, fun hbelow hnumber => ?_⟩
  · rw [hs, Ne, finite.injEq, Ne, finite.injEq]
    exact hiff
  -- Below the last steps the sum is not carried; the sign is lost only where the sum is zero.
  · have hcarry := round_sum_lt hm hz hbelow
    have hzero := round_sum_eq_zero_iff (m := ⌊|c|⌋₊) hz hnumber
    rw [hs, Ne, finite.injEq] at hcarry
    rw [hs, finite.injEq, Nat.floor_eq_zero] at hzero
    rw [hiff, and_iff_right hcarry, Ne, hzero]
    constructor
    · rintro hsign ⟨hone, hneg, hempty⟩
      exact hsign hneg ⟨by rw [abs_of_neg hneg]; linarith, hempty⟩
    · rintro hsome hneg ⟨hone, hempty⟩
      rw [abs_of_neg hneg] at hone
      exact hsome ⟨by linarith, hneg, hempty⟩

/-- An inverted colour that is nothing but a fraction, with another opacity. -/
theorem rgb_kept_of_fraction :
    |(-3 / 4 : ℚ)| < 2 ^ 24 ∧ Number.finite (1 / 4) ≠ .nan ∧
      rgb? (text (withAlpha (.finite (-3 / 4)) (.finite (1 / 4)))) =
        rgb? (text (.finite (-3 / 4))) := by
  have hc : |(-3 / 4 : ℚ)| < 2 ^ 24 := by norm_num [abs_of_neg]
  have hnan : Number.finite (1 / 4) ≠ .nan := nofun
  obtain ⟨z, ha, -, -, -, hkept⟩ := rgb_kept hc hnan
  have hquarter : normalizeAlpha (.finite (1 / 4)) = .finite (1 / 4) := by decide +kernel
  obtain rfl : 1 / 4 = z := Number.finite.inj (hquarter.symm.trans ha)
  have hnumber : (2 : ℚ) ^ (-1074 : Int) ≤ 1 / 4 :=
    calc (2 : ℚ) ^ (-1074 : Int) ≤ 2 ^ (-2 : Int) := zpow_le_zpow_right₀ one_le_two (by norm_num)
      _ = 1 / 4 := by norm_num
  exact ⟨hc, hnan, (hkept (by norm_num) (.inr hnumber)).mpr (by norm_num)⟩

/-- **A negative number above minus one loses its inversion** to full opacity. -/
theorem inversion_lost :
    rgb? (text (.finite (-1 / 2))) = some 0xFFFFFF ∧
      rgb? (text (withAlpha (.finite (-1 / 2)) (.finite 1))) = some 0 ∧
      ¬ ∀ c a : ℚ, |c| < 2 ^ 24 →
        rgb? (text (withAlpha (.finite c) (.finite a))) = rgb? (text (.finite c)) := by
  have hbefore : rgb? (text (.finite (-1 / 2))) = some 0xFFFFFF := by decide +kernel
  have hafter : rgb? (text (withAlpha (.finite (-1 / 2)) (.finite 1))) = some 0 := by decide +kernel
  refine ⟨hbefore, hafter, fun h => ?_⟩
  have hkept := h (-1 / 2) 1 (by norm_num [abs_of_neg])
  rw [hbefore, hafter] at hkept
  cases hkept

end Color

end StyleBook
