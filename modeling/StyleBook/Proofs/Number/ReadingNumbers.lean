import StyleBook.Number.Text
import StyleBook.Proofs.Number.Rounding

namespace StyleBook

/-!
# Reading numbers back

The text of a number denotes a rational that is rounded to the same number. Its digits are looked
for on finer and finer grids, and the finest one, with 17 digits, always has
a point that reads back.

* `Decimal.onGrid?_isSome_of_fine`, `Decimal.search_contains` — a fine grid has such a point, and
  only such points are found;
* `Decimal.round_shortest` — the shortest digits are rounded to the number;
* `Decimal.read?`, `NumberLayout.read?_positional` — what a text denotes: the
  decimal that was written;
* `Number.css_reads` — so the text of a positive number reads back.
-/

namespace Decimal

open Number

variable {n d m : Nat} {p place : Int} {q y : ℚ} {i : ReadsBack}

/-! ### Grids -/

/-- A power of ten as a product. -/
theorem tenTo_eq (e : Int) : tenTo e = 10 ^ e := by
  unfold tenTo
  simp only [Nat.pow_eq]
  rw [Rat.mkRat_eq_div, zpow_eq_div]
  push_cast
  rfl

theorem tenTo_pos (e : Int) : 0 < tenTo e := by
  rw [tenTo_eq]
  positivity

theorem toRat_eq (d : Decimal) : d.toRat = d.coefficient * 10 ^ d.exponent := by
  unfold toRat
  rw [tenTo_eq]

/-- The point of a grid below a rational. -/
def pointBelow (q : ℚ) (place : Int) : Decimal := ⟨(q / tenTo place).floor.toNat, place⟩

/-- The next point. -/
def pointAbove (q : ℚ) (place : Int) : Decimal := ⟨(pointBelow q place).coefficient + 1, place⟩

theorem toRat_pointAbove (q : ℚ) (place : Int) :
    (pointAbove q place).toRat = (pointBelow q place).toRat + tenTo place := by
  show ((_ + 1 : Nat) : ℚ) * tenTo place = _ * tenTo place + tenTo place
  push_cast
  ring

/-- The rational is between the two points. -/
theorem pointBelow_bounds (hq : 0 ≤ q) (place : Int) :
    (pointBelow q place).toRat ≤ q ∧ q < (pointAbove q place).toRat := by
  have hpos := tenTo_pos place
  have hfloor : (((q / tenTo place).floor.toNat : Nat) : ℚ) = ⌊q / tenTo place⌋ := by
    have hnonneg : 0 ≤ (q / tenTo place).floor := Int.floor_nonneg.mpr (div_nonneg hq hpos.le)
    rw [← Int.cast_natCast, Int.toNat_of_nonneg hnonneg]
    rfl
  have hbelow : (pointBelow q place).toRat = ⌊q / tenTo place⌋ * tenTo place := by
    show ((q / tenTo place).floor.toNat : ℚ) * tenTo place = _
    rw [hfloor]
  rw [toRat_pointAbove, hbelow]
  constructor
  · rw [← le_div_iff₀ hpos]
    exact Int.floor_le _
  · rw [← add_one_mul, ← div_lt_iff₀ hpos]
    exact Int.lt_floor_add_one _

theorem onGrid?_eq (i : ReadsBack) (q : ℚ) (place : Int) :
    onGrid? i q place =
      match i.contains (pointBelow q place).toRat, i.contains (pointAbove q place).toRat with
      | true, true =>
        some (if q - (pointBelow q place).toRat < (pointAbove q place).toRat - q then
          pointBelow q place else pointAbove q place)
      | true, false => some (pointBelow q place)
      | false, true => some (pointAbove q place)
      | false, false => none := rfl

/-- A point is found if one of the two reads back. -/
theorem onGrid?_isSome (h : i.contains (pointBelow q place).toRat = true ∨
    i.contains (pointAbove q place).toRat = true) : (onGrid? i q place).isSome := by
  rw [onGrid?_eq]
  rcases h with h | h
  · rw [h]
    split <;> simp_all
  · rw [h]
    split <;> simp_all

/-- The point that is found reads back. -/
theorem onGrid?_contains {d : Decimal} (h : onGrid? i q place = some d) :
    i.contains d.toRat = true := by
  rw [onGrid?_eq] at h
  split at h
  · next hbelow habove =>
    cases h
    split
    · exact hbelow
    · exact habove
  · next hbelow _ =>
    cases h
    exact hbelow
  · next _ habove =>
    cases h
    exact habove
  · cases h

/-! ### Searching -/

theorem search_contains {count : Nat} {d : Decimal} (h : search i q count place = some d) :
    i.contains d.toRat = true := by
  induction count generalizing place with
  | zero => cases h
  | succ count ih =>
    rw [search] at h
    cases hgrid : onGrid? i q place with
    | some d' =>
      rw [hgrid] at h
      cases h
      exact onGrid?_contains hgrid
    | none =>
      rw [hgrid] at h
      exact ih h

/-- One of the grids is enough. -/
theorem search_isSome {count k : Nat} (hk : k < count)
    (h : (onGrid? i q (place - k)).isSome) : (search i q count place).isSome := by
  induction count generalizing place k with
  | zero => omega
  | succ count ih =>
    rw [search]
    cases hgrid : onGrid? i q place with
    | some d => rfl
    | none =>
      cases k with
      | zero =>
        rw [Nat.cast_zero, Int.sub_zero, hgrid] at h
        cases h
      | succ k =>
        refine ih (k := k) (by omega) ?_
        rwa [show place - 1 - (k : Int) = place - (k + 1 : Nat) by push_cast; ring]

/-- **A grid is fine enough** if the magnitude is at least `10 ^ 16` steps. A step is then less than
    the last digit, and one of the two points is nearer than half of it; below a power of two, where
    only a quarter reads back, a step is less than half of the last digit. -/
theorem onGrid?_isSome_of_fine (hnormal : Normal m p) (hm : 0 < m)
    (hfine : tenTo place * 10 ^ 16 ≤ m * 2 ^ p) :
    (onGrid? (.ofSignificand m p) (m * 2 ^ p) place).isSome := by
  have hpos : (0 : ℚ) < 2 ^ p := by positivity
  obtain ⟨hbelow, habove⟩ := pointBelow_bounds (q := m * 2 ^ p) (by positivity) place
  have hstep := toRat_pointAbove (m * 2 ^ p) place
  -- To read back, a point has to be less than the part below away, or less than a half above.
  have hcontains : ∀ {y : ℚ}, (m - ReadsBack.below m p) * 2 ^ p < y → y < (m + 1 / 2) * 2 ^ p →
      (ReadsBack.ofSignificand m p).contains y = true := fun hlow hhigh =>
    ReadsBack.contains_of_lt hm ((lt_div_iff₀ hpos).mpr hlow) ((div_lt_iff₀ hpos).mpr hhigh)
  apply onGrid?_isSome
  -- At a power of two the numbers below are closer, so only the upper point is sure to read back.
  by_cases hquarter : m = 2 ^ 52 ∧ -1074 < p
  · have hm52 : (m : ℚ) = 2 ^ 52 := by exact_mod_cast hquarter.1
    right
    apply hcontains
    · unfold ReadsBack.below
      rw [if_pos hquarter]
      linarith
    · have hproduct : (m : ℚ) * 2 ^ p = 2 ^ 52 * 2 ^ p := by rw [hm52]
      linarith
  · have hm53 : (m : ℚ) ≤ 2 ^ 53 := by exact_mod_cast hnormal.le
    have hsmall : tenTo place < 2 ^ p := by nlinarith
    have hhalf : ReadsBack.below m p = 1 / 2 := by
      unfold ReadsBack.below
      rw [if_neg hquarter]
    rw [hhalf] at hcontains
    by_cases hnear : m * 2 ^ p - (pointBelow (m * 2 ^ p) place).toRat < 2 ^ p / 2
    · left
      apply hcontains <;> linarith
    · right
      apply hcontains <;> linarith

/-! ### Shortest digits -/

/-- The place of the first digit is not above the rational. -/
theorem tenTo_firstPlace_le (hn : 0 < n) (hd : 0 < d) : tenTo (firstPlace n d) ≤ n / d := by
  have hd' : (0 : ℚ) < d := by exact_mod_cast hd
  have hiff : ∀ e : Int, d * Nat.pow 10 e.toNat ≤ n * Nat.pow 10 (-e).toNat ↔
      (10 : ℚ) ^ e ≤ n / d := by
    intro e
    simp only [Nat.pow_eq]
    rw [zpow_eq_div, div_le_div_iff₀ (by positivity) hd', mul_comm]
    exact_mod_cast Iff.rfl
  rw [tenTo_eq]
  unfold firstPlace
  by_cases hreached : d * Nat.pow 10
      (((Nat.toDigits 10 n).length : Int) - (Nat.toDigits 10 d).length).toNat ≤
        n * Nat.pow 10 (-(((Nat.toDigits 10 n).length : Int) - (Nat.toDigits 10 d).length)).toNat
  · simp only [if_pos hreached]
    exact (hiff _).mp hreached
  · simp only [if_neg hreached]
    -- The first digits of `n` and `d` leave one place.
    have hpow : ∀ k : Nat, 0 < k → (10 : ℚ) ^ ((Nat.toDigits 10 k).length - 1 : Int) ≤ k := by
      intro k hk
      have hlength : 0 < (Nat.toDigits 10 k).length := Nat.length_toDigits_pos
      have hle : 10 ^ ((Nat.toDigits 10 k).length - 1) ≤ k := by
        by_contra hlt
        rcases Nat.eq_zero_or_pos ((Nat.toDigits 10 k).length - 1) with h | h
        · rw [h] at hlt
          omega
        · have := (Nat.length_toDigits_le_iff (by norm_num) h).mpr (Nat.lt_of_not_le hlt)
          omega
      rw [show ((Nat.toDigits 10 k).length - 1 : Int) = ((Nat.toDigits 10 k).length - 1 : Nat) by
        omega, zpow_natCast]
      exact_mod_cast hle
    have hlt : (d : ℚ) < 10 ^ ((Nat.toDigits 10 d).length : Int) := by
      rw [zpow_natCast]
      exact_mod_cast (Nat.length_toDigits_le_iff (by norm_num) Nat.length_toDigits_pos).mp le_rfl
    rw [le_div_iff₀ hd']
    calc (10 : ℚ) ^ (((Nat.toDigits 10 n).length : Int) - (Nat.toDigits 10 d).length - 1) * d
        ≤ 10 ^ (((Nat.toDigits 10 n).length : Int) - (Nat.toDigits 10 d).length - 1) *
            10 ^ ((Nat.toDigits 10 d).length : Int) := by gcongr
      _ = 10 ^ ((Nat.toDigits 10 n).length - 1 : Int) := by
        rw [← zpow_add₀ (by norm_num)]
        congr 1
        ring
      _ ≤ n := hpow n hn

/-- Trailing zeros make no difference. -/
theorem toRat_strip (count : Nat) (d : Decimal) : (strip count d).toRat = d.toRat := by
  induction count generalizing d with
  | zero => rfl
  | succ count ih =>
    rw [strip]
    split
    · next h =>
      have hten : (10 * (d.coefficient / 10 : Nat) : ℚ) = d.coefficient := by
        exact_mod_cast Nat.mul_div_cancel' (Nat.dvd_of_mod_eq_zero h.1)
      rw [ih, toRat_eq, toRat_eq, ← hten, zpow_add_one₀ (by norm_num)]
      ring
    · rfl

/-- **Digits are found** for every magnitude: with 17 of them, the grid is fine enough. -/
theorem search_finds (hnormal : Normal m p) :
    (search (.ofSignificand m p) (dyadic m p) 17
      (firstPlace (dyadic m p).num.natAbs (dyadic m p).den)).isSome := by
  rw [dyadic_eq]
  rcases Nat.eq_zero_or_pos m with rfl | hm
  · -- Zero is a point of the first grid.
    refine search_isSome (k := 0) (by norm_num) (onGrid?_isSome (.inl ?_))
    rw [Nat.cast_zero, zero_mul]
    have hnonneg : ∀ d : Decimal, 0 ≤ d.toRat := fun d => by
      rw [toRat_eq]
      positivity
    rw [le_antisymm (pointBelow_bounds le_rfl _).1 (hnonneg _)]
    exact ReadsBack.contains_zero p
  -- With the 17th digit the grid is fine enough, as the first digit is not zero.
  · refine search_isSome (k := 16) (by norm_num) (onGrid?_isSome_of_fine hnormal hm ?_)
    have hq : (0 : ℚ) < m * 2 ^ p := by positivity
    have hfirst := tenTo_firstPlace_le (Int.natAbs_pos.mpr (Rat.num_pos.mpr hq).ne')
      (m * 2 ^ p : ℚ).den_pos
    rw [natAbs_num_div_den hq.le, tenTo_eq] at hfirst
    rw [tenTo_eq, zpow_sub₀ (by norm_num), zpow_natCast, div_mul_cancel₀ _ (by norm_num)]
    exact hfirst

/-- **The shortest digits read back.** -/
theorem contains_shortest (hn : 0 < n) (hd : 0 < d) :
    (ReadsBack.ofSignificand (significand n d (placeOf (n / d))) (placeOf (n / d))).contains
      (shortest n d).toRat = true := by
  have hx : (0 : ℚ) < n / d := div_pos (by exact_mod_cast hn) (by exact_mod_cast hd)
  obtain ⟨found, hfound⟩ := Option.isSome_iff_exists.mp
    (search_finds ((significand_nearest hd n (placeOf (n / d))).normal hx))
  unfold shortest
  simp only [lastPlace_eq hn hd]
  rw [toRat_strip, hfound, Option.getD_some]
  exact search_contains hfound

/-- **They are rounded to what the rational is rounded to.** -/
theorem round_shortest (hn : 0 < n) (hd : 0 < d) :
    Number.round (shortest n d).toRat = Number.round (n / d) := by
  have hx : (0 : ℚ) < n / d := div_pos (by exact_mod_cast hn) (by exact_mod_cast hd)
  have hcontains := contains_shortest hn hd
  have hnearest := significand_nearest hd n (placeOf (n / d))
  have hrounds : Rounds (n / d) (significand n d (placeOf (n / d)) * 2 ^ placeOf (n / d)) :=
    ⟨_, hnearest, rfl⟩
  have hnormal := hnearest.normal hx
  generalize (shortest n d).toRat = y at hcontains
  -- Both are rounded to the magnitude that the digits were searched for.
  rcases (ReadsBack.nonneg_of_contains hcontains).eq_or_lt with rfl | hy
  · -- Only of the significand zero does zero read back.
    obtain ⟨hlow, -, -⟩ := ReadsBack.contains_bounds hcontains
    have hbelow := ReadsBack.below_le (significand n d (placeOf (n / d))) (placeOf (n / d))
    rw [zero_div] at hlow
    have hm : significand n d (placeOf (n / d)) = 0 := by
      have hlt : (significand n d (placeOf (n / d)) : ℚ) < (1 : Nat) := by
        push_cast
        linarith
      have : significand n d (placeOf (n / d)) < 1 := by exact_mod_cast hlt
      omega
    rw [hm, Nat.cast_zero, zero_mul] at hrounds
    rw [round_of_le_two hx hrounds zero_le_two, Number.round_zero]
  · exact round_eq_of_rounds hy hx (ReadsBack.rounds_of_contains hnormal hy hcontains) hrounds

/-! ### What a text denotes -/

/-- The rational that a text denotes: digits, and more of them behind a point, if there is one. -/
def read? (text : String) : Option ℚ :=
  let whole := text.toList.takeWhile Char.isDigit
  if whole.isEmpty then none
  else
    match text.toList.dropWhile Char.isDigit with
    | [] => some (Nat.ofDigitChars 10 whole 0)
    | '.' :: fraction =>
      if !fraction.isEmpty && fraction.all Char.isDigit then
        some (Nat.ofDigitChars 10 (whole ++ fraction) 0 / 10 ^ fraction.length)
      else none
    | _ => none

variable {whole fraction : List Char}

theorem read?_digits (hne : whole ≠ []) (hwhole : ∀ c ∈ whole, c.isDigit = true) :
    read? (String.ofList whole) = some (Nat.ofDigitChars 10 whole 0 : ℚ) := by
  have htake : whole.takeWhile Char.isDigit = whole := by
    rw [← List.append_nil whole, List.takeWhile_append_of_pos hwhole, List.takeWhile_nil]
  have hdrop : whole.dropWhile Char.isDigit = [] := by
    rw [← List.append_nil whole, List.dropWhile_append_of_pos hwhole, List.dropWhile_nil]
  unfold read?
  simp only [String.toList_ofList, htake, hdrop, List.isEmpty_iff, if_neg hne]

theorem read?_point (hne : whole ≠ []) (hwhole : ∀ c ∈ whole, c.isDigit = true)
    (hne' : fraction ≠ []) (hfraction : ∀ c ∈ fraction, c.isDigit = true) :
    read? (String.ofList (whole ++ '.' :: fraction)) =
      some (Nat.ofDigitChars 10 (whole ++ fraction) 0 / 10 ^ fraction.length : ℚ) := by
  have htake : (whole ++ '.' :: fraction).takeWhile Char.isDigit = whole := by
    simp [List.takeWhile_append_of_pos hwhole]
  have hdrop : (whole ++ '.' :: fraction).dropWhile Char.isDigit = '.' :: fraction := by
    simp [List.dropWhile_append_of_pos hwhole]
  have hfits : (!fraction.isEmpty && fraction.all Char.isDigit) = true := by
    simpa [hne'] using hfraction
  unfold read?
  simp only [String.toList_ofList, htake, hdrop, List.isEmpty_iff, if_neg hne, hfits, if_true]

end Decimal

/-- **A decimal that is written without an exponent is read back.** -/
theorem NumberLayout.read?_positional (d : Decimal) :
    Decimal.read? (NumberLayout.plain.positional d) = some d.toRat := by
  have hdigits : ∀ c ∈ Nat.toDigits 10 d.coefficient, c.isDigit = true := fun c hc =>
    Nat.isDigit_of_mem_toDigits (by norm_num) (by norm_num) hc
  have hne : Nat.toDigits 10 d.coefficient ≠ [] := Nat.toDigits_ne_nil
  have hzeros : ∀ n, ∀ c ∈ List.replicate n '0', c.isDigit = true := by
    intro n c hc
    rw [List.eq_of_mem_replicate hc]
    rfl
  have hlength : (d.digits.length : Int) = (Nat.toDigits 10 d.coefficient).length := by
    unfold Decimal.digits
    rw [Nat.repr_eq_ofList_toDigits, String.length_ofList]
  unfold positional
  simp only [hlength]
  rw [Decimal.toRat_eq]
  unfold Decimal.digits
  rw [Nat.repr_eq_ofList_toDigits]
  -- The point stands behind all digits, among them, or before them.
  by_cases hwhole : 0 ≤ d.exponent
  · rw [if_pos hwhole]
    have htext : String.ofList (Nat.toDigits 10 d.coefficient) ++ zeros d.exponent.toNat ++
        (if plain.pointAfterInteger then ".0" else "") =
          String.ofList (Nat.toDigits 10 d.coefficient ++ List.replicate d.exponent.toNat '0') := by
      rw [String.ofList_append]
      exact String.append_empty
    rw [htext, Decimal.read?_digits (List.append_ne_nil_of_left_ne_nil hne _)
      (List.forall_mem_append.mpr ⟨hdigits, hzeros _⟩), Nat.ofDigitChars_append,
      Nat.ofDigitChars_ten_toDigits, Nat.ofDigitChars_replicate_zero]
    obtain ⟨k, hk⟩ := Int.eq_ofNat_of_zero_le hwhole
    rw [hk, Int.toNat_natCast, zpow_natCast]
    push_cast
    rw [mul_comm]
  · rw [if_neg hwhole]
    obtain ⟨k, hk⟩ : ∃ k : Nat, d.exponent = -k := ⟨(-d.exponent).toNat, by omega⟩
    have hkpos : 0 < k := by omega
    rw [hk, zpow_neg, zpow_natCast, ← div_eq_mul_inv]
    by_cases hpoint : 0 < ((Nat.toDigits 10 d.coefficient).length : Int) + -k
    · -- The point stands among the digits.
      rw [if_pos hpoint]
      set cs := Nat.toDigits 10 d.coefficient with hcs
      obtain ⟨j, hj⟩ : ∃ j : Nat, (cs.length : Int) + -k = j := ⟨cs.length - k, by omega⟩
      rw [hj, Int.toNat_natCast, String.toList_ofList]
      have htext : String.ofList (cs.take j) ++ "." ++ String.ofList (cs.drop j) =
          String.ofList (cs.take j ++ '.' :: cs.drop j) := by
        rw [List.append_cons, String.ofList_append, String.ofList_append]
      have hdrop : (cs.drop j).length = k := by
        rw [List.length_drop]
        omega
      rw [htext, Decimal.read?_point
        (List.ne_nil_of_length_pos (by rw [List.length_take]; omega))
        (fun c hc => hdigits c (List.mem_of_mem_take hc))
        (List.ne_nil_of_length_pos (by omega))
        (fun c hc => hdigits c (List.mem_of_mem_drop hc)),
        List.take_append_drop, hdrop, hcs, Nat.ofDigitChars_ten_toDigits]
    · -- The point stands before them.
      rw [if_neg hpoint]
      set cs := Nat.toDigits 10 d.coefficient with hcs
      obtain ⟨j, hj⟩ : ∃ j : Nat, -((cs.length : Int) + -k) = j := ⟨k - cs.length, by omega⟩
      rw [hj, Int.toNat_natCast]
      have htext : "0." ++ zeros j ++ String.ofList cs =
          String.ofList (['0'] ++ '.' :: (List.replicate j '0' ++ cs)) := by
        rw [List.append_cons, String.ofList_append, String.ofList_append, String.ofList_append,
          ← String.append_assoc]
        rfl
      have hfraction : (List.replicate j '0' ++ cs).length = k := by
        rw [List.length_append, List.length_replicate]
        omega
      have hvalue : Nat.ofDigitChars 10 (['0'] ++ (List.replicate j '0' ++ cs)) 0 =
          d.coefficient := by
        rw [Nat.ofDigitChars_append, Nat.ofDigitChars_append,
          show Nat.ofDigitChars 10 ['0'] 0 = 0 from rfl, Nat.ofDigitChars_replicate_zero,
          Nat.mul_zero, hcs, Nat.ofDigitChars_ten_toDigits]
      have hzero : ∀ c ∈ ['0'], c.isDigit = true := hzeros 1
      rw [htext, Decimal.read?_point (List.cons_ne_nil _ _) hzero
        (List.append_ne_nil_of_right_ne_nil _ hne)
        (List.forall_mem_append.mpr ⟨hzeros j, hdigits⟩), hfraction, hvalue]

namespace Number

variable {p q : ℚ}

theorem compare?_finite (p q : ℚ) :
    compare? (.finite p) (.finite q) = some (if p < q then .lt else if q < p then .gt else .eq) :=
  rfl

theorem same_finite : same (.finite p) (.finite q) = true ↔ p = q := by
  unfold same
  rw [compare?_finite]
  rcases lt_trichotomy p q with h | rfl | h
  · simp [h, h.ne]
  · simp
  · simp [h, h.ne', h.not_gt]

theorem less_finite : less (.finite p) (.finite q) = true ↔ p < q := by
  unfold less
  rw [compare?_finite]
  rcases lt_trichotomy p q with h | rfl | h
  · simp [h]
  · simp
  · simp [h, h.le]

theorem atLeast_finite : atLeast (.finite p) (.finite q) = true ↔ q ≤ p := by
  unfold atLeast
  rw [compare?_finite]
  rcases lt_trichotomy p q with h | rfl | h
  · simp [h]
  · simp
  · simp [h, h.le]

theorem isZero_finite : (Number.finite q).isZero = true ↔ q = 0 := same_finite

/-- What is written of a positive number are its shortest digits. -/
theorem css_of_pos (hq : 0 < q) :
    (Number.finite q).css =
      NumberLayout.plain.positional (Decimal.shortest q.num.natAbs q.den) := by
  unfold css
  rw [if_neg (isZero_finite.not.mpr hq.ne')]
  show (if q = 0 then _ else if q < 0 then _ else NumberLayout.magnitude _ _ _) = _
  rw [if_neg hq.ne', if_neg (not_lt.mpr hq.le)]
  rfl

/-- **The text of a positive number is read back** as a rational that is
    rounded to the same number. -/
theorem css_reads (hq : 0 < q) :
    ∃ y, Decimal.read? (Number.finite q).css = some y ∧ round y = round q := by
  refine ⟨(Decimal.shortest q.num.natAbs q.den).toRat, ?_, ?_⟩
  · rw [css_of_pos hq]
    exact NumberLayout.read?_positional _
  · rw [Decimal.round_shortest (Int.natAbs_pos.mpr (Rat.num_pos.mpr hq).ne') q.den_pos,
      natAbs_num_div_den hq.le]

end Number

end StyleBook
