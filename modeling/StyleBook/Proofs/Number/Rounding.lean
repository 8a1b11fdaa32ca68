import Mathlib.Algebra.Order.Field.Power
import Mathlib.Data.Int.Log
import Mathlib.Data.Rat.Floor
import Mathlib.Tactic.Linarith
import Mathlib.Tactic.NormNum
import Mathlib.Tactic.Ring
import StyleBook.Number.Shortest

namespace StyleBook

/-!
# What rounding makes of a rational

A positive rational is rounded to a multiple of a power of two: the place of the last digit follows
from the rational, and the significand is the nearest whole number there. Rationals between the
neighbours' halves are rounded to the same.

* `Number.placeOf` — the place of the last digit, by the logarithm; `Number.lastPlace_eq`;
* `Number.Nearest`, `Number.Rounds` — nearest whole numbers, and what a rational is rounded to;
* `Number.Normal` — the significands that rounding makes;
* `ReadsBack.rounds_of_contains` — a rational that reads back is rounded to the same;
* `Number.Rounds.self`, `Number.round_eq_of_rounds` — magnitudes are rounded to themselves, and
  rationals with one magnitude to the same number;
* `Number.round_between`, `Number.round_ne_zero` — rounding keeps to ranges whose ends are multiples
  of a power of two, and above zero.
-/

namespace Number

variable {n d m k : Nat} {p : Int} {x y z : ℚ}

/-! ### Powers -/

/-- A power as the fraction that it is computed by. -/
theorem zpow_eq_div (b : ℚ) (e : Int) : b ^ e = b ^ e.toNat / b ^ (-e).toNat := by
  rcases Int.le_total 0 e with h | h
  · rw [Int.toNat_eq_zero.mpr (by omega : -e ≤ 0), pow_zero, div_one]
    conv_lhs => rw [← Int.toNat_of_nonneg h, zpow_natCast]
  · rw [Int.toNat_eq_zero.mpr h, pow_zero, one_div]
    conv_lhs => rw [show e = -((-e).toNat : Int) by omega, zpow_neg, zpow_natCast]

/-- A dyadic number as a product. -/
theorem dyadic_eq (m : Nat) (place : Int) : dyadic m place = m * 2 ^ place := by
  unfold dyadic
  simp only [Nat.pow_eq]
  rw [Rat.mkRat_eq_div, zpow_eq_div]
  push_cast
  rw [mul_div_assoc]

/-! ### The last place -/

/-- The place of the last digit that is kept of a positive rational: 52 places below the first one,
    and never below `2 ^ -1074`. -/
def placeOf (x : ℚ) : Int := max (Int.log 2 x - 52) (-1074)

theorem zpow_le_iff {e : Int} (hx : 0 < x) : (2 : ℚ) ^ e ≤ x ↔ e ≤ Int.log 2 x :=
  Int.zpow_le_iff_le_log Nat.one_lt_two hx

theorem lt_zpow_iff {e : Int} (hx : 0 < x) : x < (2 : ℚ) ^ e ↔ Int.log 2 x < e :=
  Int.lt_zpow_iff_log_lt Nat.one_lt_two hx

/-- The comparison by which the first place is found. -/
theorem reached_iff (hd : 0 < d) (e : Int) :
    d * Nat.pow 2 e.toNat ≤ n * Nat.pow 2 (-e).toNat ↔ (2 : ℚ) ^ e ≤ n / d := by
  have hd' : (0 : ℚ) < d := by exact_mod_cast hd
  simp only [Nat.pow_eq]
  rw [zpow_eq_div, div_le_div_iff₀ (by positivity) hd', mul_comm]
  exact_mod_cast Iff.rfl

/-- **The last place is that of the rational.** -/
theorem lastPlace_eq (hn : 0 < n) (hd : 0 < d) : lastPlace n d = placeOf (n / d) := by
  have hx : (0 : ℚ) < n / d := div_pos (by exact_mod_cast hn) (by exact_mod_cast hd)
  -- The first digits of `n` and `d` leave two places.
  have hlog : Int.log 2 (n / d : ℚ) =
      if d * Nat.pow 2 ((n.log2 : Int) - d.log2).toNat ≤
        n * Nat.pow 2 (-((n.log2 : Int) - d.log2)).toNat
      then (n.log2 : Int) - d.log2 else n.log2 - d.log2 - 1 := by
    have hn' : (n : ℚ) < 2 ^ ((n.log2 : Int) + 1) := by exact_mod_cast Nat.lt_log2_self (n := n)
    have hd' : (2 : ℚ) ^ (d.log2 : Int) ≤ d := by
      exact_mod_cast Nat.log2_self_le (Nat.pos_iff_ne_zero.mp hd)
    have hn'' : (2 : ℚ) ^ (n.log2 : Int) ≤ n := by
      exact_mod_cast Nat.log2_self_le (Nat.pos_iff_ne_zero.mp hn)
    have hd'' : (d : ℚ) < 2 ^ ((d.log2 : Int) + 1) := by exact_mod_cast Nat.lt_log2_self (n := d)
    have hdpos : (0 : ℚ) < d := by exact_mod_cast hd
    have hupper : Int.log 2 (n / d : ℚ) < n.log2 - d.log2 + 1 := by
      rw [← lt_zpow_iff hx, div_lt_iff₀ hdpos]
      calc (n : ℚ) < 2 ^ ((n.log2 : Int) + 1) := hn'
        _ = 2 ^ ((n.log2 : Int) - d.log2 + 1) * 2 ^ (d.log2 : Int) := by
          rw [← zpow_add₀ two_ne_zero]
          congr 1
          ring
        _ ≤ 2 ^ ((n.log2 : Int) - d.log2 + 1) * d := by gcongr
    have hlower : (n.log2 : Int) - d.log2 - 1 ≤ Int.log 2 (n / d : ℚ) := by
      rw [← zpow_le_iff hx, le_div_iff₀ hdpos]
      calc (2 : ℚ) ^ ((n.log2 : Int) - d.log2 - 1) * d
          ≤ 2 ^ ((n.log2 : Int) - d.log2 - 1) * 2 ^ ((d.log2 : Int) + 1) := by gcongr
        _ = 2 ^ (n.log2 : Int) := by
          rw [← zpow_add₀ two_ne_zero]
          congr 1
          ring
        _ ≤ n := hn''
    by_cases hreached : d * Nat.pow 2 ((n.log2 : Int) - d.log2).toNat ≤
        n * Nat.pow 2 (-((n.log2 : Int) - d.log2)).toNat
    · rw [if_pos hreached]
      have := (zpow_le_iff hx).mp ((reached_iff hd _).mp hreached)
      omega
    · rw [if_neg hreached]
      have := (lt_zpow_iff hx).mp (lt_of_not_ge fun h => hreached ((reached_iff hd _).mpr h))
      omega
  unfold lastPlace placeOf
  rw [hlog]
  simp only [decide_eq_true_eq]

theorem placeOf_ge (x : ℚ) : -1074 ≤ placeOf x := le_max_right _ _

/-- A place is the last one of all rationals with 53 digits there, and it is that of those with
    fewer ones, if there is no place below. -/
theorem placeOf_eq (hx : 0 < x) (hp : -1074 ≤ p) (hlt : x < 2 ^ 53 * 2 ^ p)
    (hle : 2 ^ 52 * 2 ^ p ≤ x ∨ p = -1074) : placeOf x = p := by
  have hpow : ∀ j : Nat, (2 : ℚ) ^ j * 2 ^ p = 2 ^ (p + j) := fun j => by
    rw [zpow_add₀ two_ne_zero, zpow_natCast, mul_comm]
  have hupper := (lt_zpow_iff hx).mp (hpow 53 ▸ hlt)
  unfold placeOf
  rcases hle with hle | rfl
  · have hlower := (zpow_le_iff hx).mp (hpow 52 ▸ hle)
    push_cast at hupper hlower
    omega
  · push_cast at hupper
    omega

/-- No digit stands above the 53 kept ones. -/
theorem lt_of_placeOf (x : ℚ) : x < 2 ^ 53 * 2 ^ placeOf x := by
  have hlt := Int.lt_zpow_succ_log_self Nat.one_lt_two x
  have hle : Int.log 2 x + 1 ≤ placeOf x + 53 := by
    unfold placeOf
    omega
  calc x < 2 ^ (Int.log 2 x + 1) := by exact_mod_cast hlt
    _ ≤ 2 ^ (placeOf x + 53) := zpow_le_zpow_right₀ one_le_two hle
    _ = 2 ^ 53 * 2 ^ placeOf x := by rw [zpow_add₀ two_ne_zero, mul_comm]; norm_num

/-- The first of 53 kept digits is not zero, unless there is no place below. -/
theorem le_of_placeOf (hx : 0 < x) (hp : -1074 < placeOf x) : 2 ^ 52 * 2 ^ placeOf x ≤ x := by
  have hle : (2 : ℚ) ^ Int.log 2 x ≤ x := by
    exact_mod_cast Int.zpow_log_le_self Nat.one_lt_two hx
  have heq : placeOf x + 52 = Int.log 2 x := by
    unfold placeOf at hp ⊢
    omega
  calc 2 ^ 52 * (2 : ℚ) ^ placeOf x = 2 ^ (placeOf x + 52) := by
        rw [zpow_add₀ two_ne_zero, mul_comm]; norm_num
    _ = 2 ^ Int.log 2 x := by rw [heq]
    _ ≤ x := hle

/-! ### Nearest whole numbers -/

/-- **The whole number is a nearest one,** and the even one halfway. -/
structure Nearest (x : ℚ) (k : Nat) : Prop where
  lower : k - 1 / 2 ≤ x
  upper : x ≤ k + 1 / 2
  even : x = k - 1 / 2 ∨ x = k + 1 / 2 → k % 2 = 0

/-- There is only one. -/
theorem Nearest.unique (h : Nearest x m) (h' : Nearest x k) : m = k := by
  -- Two of them are neighbours, with the rational halfway, and both are even.
  have hcases : ∀ {i j : Nat}, Nearest x i → Nearest x j → ¬ i < j := by
    intro i j hi hj hlt
    have hsucc : (i : ℚ) + 1 ≤ j := by exact_mod_cast hlt
    have hupper := hi.upper
    have hlower := hj.lower
    have hx : x = i + 1 / 2 := by linarith
    have hj' : (j : ℚ) = i + 1 := by linarith
    have heven := hi.even (.inr hx)
    have heven' := hj.even (.inl (by linarith))
    have : j = i + 1 := by exact_mod_cast hj'
    omega
  exact Nat.le_antisymm (Nat.le_of_not_lt (hcases h' h)) (Nat.le_of_not_lt (hcases h h'))

/-- **The division gives it.** -/
theorem divNearestEven_nearest (hd : 0 < d) (n : Nat) :
    Nearest (n / d) (divNearestEven n d) := by
  have hd' : (0 : ℚ) < d := by exact_mod_cast hd
  -- The quotient is a whole part and a rest below one, which is compared with a half.
  have hsplit : (n : ℚ) / d = (n / d : Nat) + (n % d : Nat) / d := by
    rw [div_eq_iff hd'.ne', add_mul, div_mul_cancel₀ _ hd'.ne']
    exact_mod_cast (Nat.div_add_mod' n d).symm
  have hrest : ((n % d : Nat) : ℚ) / d < 1 := by
    rw [div_lt_one hd']
    exact_mod_cast Nat.mod_lt n hd
  have hnonneg : (0 : ℚ) ≤ ((n % d : Nat) : ℚ) / d := by positivity
  rw [hsplit]
  unfold divNearestEven
  by_cases hbelow : 2 * (n % d) < d
  · have hhalf : ((n % d : Nat) : ℚ) / d < 1 / 2 := by
      rw [div_lt_div_iff₀ hd' two_pos]
      exact_mod_cast (by omega : n % d * 2 < 1 * d)
    rw [if_pos hbelow]
    refine ⟨by linarith, by linarith, ?_⟩
    rintro (h | h) <;> linarith
  · rw [if_neg hbelow]
    by_cases habove : d < 2 * (n % d)
    · have hhalf : 1 / 2 < ((n % d : Nat) : ℚ) / d := by
        rw [div_lt_div_iff₀ two_pos hd']
        exact_mod_cast (by omega : 1 * d < n % d * 2)
      rw [if_pos habove]
      refine ⟨?_, ?_, ?_⟩ <;> rw [Nat.cast_add_one]
      · linarith
      · linarith
      · rintro (h | h) <;> linarith
    -- On a tie the even one of both neighbours is taken.
    · have hhalf : ((n % d : Nat) : ℚ) / d = 1 / 2 := by
        rw [div_eq_div_iff hd'.ne' two_ne_zero]
        exact_mod_cast (by omega : n % d * 2 = 1 * d)
      rw [if_neg habove, hhalf]
      rcases Nat.mod_two_eq_zero_or_one (n / d) with h | h <;> rw [h]
      · exact ⟨by rw [add_zero]; linarith, by rw [add_zero], fun _ => h⟩
      · refine ⟨?_, ?_, fun _ => by omega⟩ <;> rw [Nat.cast_add_one] <;> linarith

/-- The significand is the nearest whole number at its place. -/
theorem significand_nearest (hd : 0 < d) (n : Nat) (p : Int) :
    Nearest ((n / d : ℚ) / 2 ^ p) (significand n d p) := by
  have hpos : 0 < d * Nat.pow 2 p.toNat := Nat.mul_pos hd (Nat.pow_pos Nat.two_pos)
  have hd' : (d : ℚ) ≠ 0 := by exact_mod_cast hd.ne'
  have heq : (n / d : ℚ) / 2 ^ p =
      ((n * Nat.pow 2 (-p).toNat : Nat) : ℚ) / (d * Nat.pow 2 p.toNat : Nat) := by
    simp only [Nat.pow_eq]
    rw [zpow_eq_div]
    push_cast
    field_simp
  rw [heq]
  exact divNearestEven_nearest hpos _

/-! ### Rounding -/

/-- **The rational is rounded to the magnitude:** to the nearest whole number at its last place. -/
def Rounds (x y : ℚ) : Prop := ∃ k : Nat, Nearest (x / 2 ^ placeOf x) k ∧ y = k * 2 ^ placeOf x

theorem Rounds.unique (h : Rounds x y) (h' : Rounds x z) : y = z := by
  obtain ⟨k, hk, rfl⟩ := h
  obtain ⟨j, hj, rfl⟩ := h'
  rw [hk.unique hj]

/-- At another place, if it is the last one. -/
theorem Rounds.of_place (hp : placeOf x = p) (hk : Nearest (x / 2 ^ p) k) (hy : y = k * 2 ^ p) :
    Rounds x y := by
  subst hp
  exact ⟨k, hk, hy⟩

theorem rounds_roundMagnitude (hn : 0 < n) (hd : 0 < d) : Rounds (n / d) (roundMagnitude n d) := by
  unfold roundMagnitude
  rw [lastPlace_eq hn hd]
  exact ⟨_, significand_nearest hd n _, dyadic_eq _ _⟩

/-- **What significands of what places rounding makes.** -/
structure Normal (m : Nat) (p : Int) : Prop where
  le : m ≤ 2 ^ 53
  place : -1074 ≤ p
  full : p = -1074 ∨ 2 ^ 52 ≤ m

/-- It makes those. -/
theorem Nearest.normal (hx : 0 < x) (h : Nearest (x / 2 ^ placeOf x) m) : Normal m (placeOf x) := by
  have hpos : (0 : ℚ) < 2 ^ placeOf x := by positivity
  have hupper : x / 2 ^ placeOf x < 2 ^ 53 := by
    rw [div_lt_iff₀ hpos]
    exact lt_of_placeOf x
  refine ⟨?_, placeOf_ge x, ?_⟩
  -- Rounding up from below `2 ^ 53` gives at most `2 ^ 53`.
  · have hlower := h.lower
    have hlt : (m : ℚ) < (2 ^ 53 + 1 : Nat) := by
      push_cast
      linarith
    have : m < 2 ^ 53 + 1 := by exact_mod_cast hlt
    omega
  -- Unless the place is the lowest one, the magnitude has all its digits before the point.
  · by_cases hp : -1074 < placeOf x
    · right
      have hfull : (2 : ℚ) ^ 52 ≤ x / 2 ^ placeOf x := by
        rw [le_div_iff₀ hpos]
        exact le_of_placeOf hx hp
      have hupper' := h.upper
      have hlt : ((2 ^ 52 : Nat) : ℚ) < (m + 1 : Nat) := by
        push_cast
        linarith
      have : 2 ^ 52 < m + 1 := by exact_mod_cast hlt
      omega
    · left
      have := placeOf_ge x
      omega

end Number

/-! ### Rationals that read back -/

namespace ReadsBack

open Number

variable {m : Nat} {p : Int} {y : ℚ}

/-- How far below a significand what reads back begins, in units of its place. -/
def below (m : Nat) (p : Int) : ℚ := if m = 2 ^ 52 ∧ -1074 < p then 1 / 4 else 1 / 2

theorem below_le (m : Nat) (p : Int) : below m p ≤ 1 / 2 := by
  unfold below
  split <;> norm_num

/-- The lower end of what reads back, but for the significand zero. -/
theorem low_eq (hm : 0 < m) : (ofSignificand m p).low = (m - below m p) * 2 ^ p := by
  have hhalf : ((2 * m - 1 : Nat) : ℚ) = 2 * m - 1 := by
    push_cast [Nat.cast_sub (by omega : 1 ≤ 2 * m)]
    ring
  have hquarter : ((4 * m - 1 : Nat) : ℚ) = 4 * m - 1 := by
    push_cast [Nat.cast_sub (by omega : 1 ≤ 4 * m)]
    ring
  show (if m = Nat.pow 2 52 ∧ -1074 < p then dyadic (4 * m - 1) (p - 2)
    else dyadic (2 * m - 1) (p - 1)) = _
  unfold below
  rw [show Nat.pow 2 52 = 2 ^ 52 from rfl]
  split
  · rw [dyadic_eq, hquarter, zpow_sub₀ two_ne_zero]
    ring
  · rw [dyadic_eq, hhalf, zpow_sub₀ two_ne_zero]
    ring

/-- The upper end. -/
theorem high_eq : (ofSignificand m p).high = (m + 1 / 2) * 2 ^ p := by
  show dyadic (2 * m + 1) (p - 1) = _
  rw [dyadic_eq, zpow_sub₀ two_ne_zero]
  push_cast
  ring

/-- The lower end is not further down. -/
theorem le_low (m : Nat) (p : Int) : (m - below m p) * 2 ^ p ≤ (ofSignificand m p).low := by
  rcases Nat.eq_zero_or_pos m with rfl | hm
  · -- Below the significand zero nothing reads back.
    have hhalf : below 0 p = 1 / 2 := by
      unfold below
      rw [if_neg fun h => absurd h.1 (by norm_num)]
    show _ ≤ dyadic 0 (p - 1)
    rw [dyadic_eq, hhalf, Nat.cast_zero, zero_mul]
    have : (0 : ℚ) < 2 ^ p := by positivity
    nlinarith
  · rw [low_eq hm]

/-- Nothing below zero reads back. -/
theorem nonneg_of_contains (h : (ofSignificand m p).contains y) : 0 ≤ y := by
  have hlow : 0 ≤ (ofSignificand m p).low := by
    show 0 ≤ if m = Nat.pow 2 52 ∧ -1074 < p then dyadic (4 * m - 1) (p - 2)
      else dyadic (2 * m - 1) (p - 1)
    split <;> rw [dyadic_eq] <;> positivity
  unfold contains at h
  split at h <;> simp only [Bool.and_eq_true, decide_eq_true_eq] at h
  · exact hlow.trans h.1
  · exact hlow.trans h.1.le

/-- **What reads back,** in units of the place. -/
theorem contains_bounds (h : (ofSignificand m p).contains y) :
    m - below m p ≤ y / 2 ^ p ∧ y / 2 ^ p ≤ m + 1 / 2 ∧
      (y / 2 ^ p = m - below m p ∨ y / 2 ^ p = m + 1 / 2 → m % 2 = 0) := by
  have hpos : (0 : ℚ) < 2 ^ p := by positivity
  have hlow := le_low m p
  unfold contains at h
  rw [high_eq] at h
  rw [le_div_iff₀ hpos, div_le_iff₀ hpos, div_eq_iff hpos.ne', div_eq_iff hpos.ne']
  split at h
  · next hclosed =>
    simp only [Bool.and_eq_true, decide_eq_true_eq] at h
    exact ⟨hlow.trans h.1, h.2, fun _ => eq_of_beq hclosed⟩
  · simp only [Bool.and_eq_true, decide_eq_true_eq] at h
    exact ⟨hlow.trans h.1.le, h.2.le, by rintro (heq | heq) <;> linarith [h.1, h.2]⟩

/-- What is strictly between the ends reads back. -/
theorem contains_of_lt (hm : 0 < m) (hlow : m - below m p < y / 2 ^ p)
    (hhigh : y / 2 ^ p < m + 1 / 2) : (ofSignificand m p).contains y = true := by
  have hpos : (0 : ℚ) < 2 ^ p := by positivity
  rw [lt_div_iff₀ hpos] at hlow
  rw [div_lt_iff₀ hpos] at hhigh
  unfold contains
  rw [low_eq hm, high_eq]
  split
  · simp only [Bool.and_eq_true, decide_eq_true_eq]
    exact ⟨hlow.le, hhigh.le⟩
  · simp only [Bool.and_eq_true, decide_eq_true_eq]
    exact ⟨hlow, hhigh⟩

/-- **What reads back is rounded to the magnitude.** It may have one digit less before the point
    than the magnitude has, or one more, if the significand is a power of two. -/
theorem rounds_of_contains (hnormal : Normal m p) (hy : 0 < y)
    (h : (ofSignificand m p).contains y) : Rounds y (m * 2 ^ p) := by
  have hpos : (0 : ℚ) < 2 ^ p := by positivity
  obtain ⟨hlow, hhigh, heven⟩ := contains_bounds h
  have hbelow := below_le m p
  have hplace := hnormal.place
  have hsucc : (2 : ℚ) ^ (p + 1) = 2 * 2 ^ p := by rw [zpow_add_one₀ two_ne_zero, mul_comm]
  have hpred : (2 : ℚ) ^ (p - 1) = 2 ^ p / 2 := by rw [zpow_sub_one₀ two_ne_zero]; rfl
  have hmul : y = y / 2 ^ p * 2 ^ p := (div_mul_cancel₀ y hpos.ne').symm
  -- The significand of what reads back has one digit more, one less or as many.
  generalize ht : y / 2 ^ p = t at *
  by_cases hmany : 2 ^ 53 ≤ t
  · -- One digit more: the significand is `2 ^ 53`.
    have hm53 : m = 2 ^ 53 := by
      refine Nat.le_antisymm hnormal.le ?_
      have hlt : ((2 ^ 53 : Nat) : ℚ) < (m + 1 : Nat) := by
        push_cast
        linarith
      have : 2 ^ 53 < m + 1 := by exact_mod_cast hlt
      omega
    subst hm53
    push_cast at hhigh
    have hplaceOf : placeOf y = p + 1 := by
      refine placeOf_eq hy (by omega) ?_ (.inl ?_) <;> rw [hsucc, hmul] <;> nlinarith
    refine .of_place hplaceOf (k := 2 ^ 52) ?_ ?_
    · have hhalf : y / 2 ^ (p + 1) = t / 2 := by
        rw [hsucc, ← ht]
        field_simp
      rw [hhalf]
      push_cast
      exact ⟨by linarith, by linarith, fun _ => by norm_num⟩
    · rw [hsucc]
      push_cast
      ring
  · by_cases hfew : t < 2 ^ 52 ∧ p ≠ -1074
    · -- One digit less: the significand is `2 ^ 52`.
      obtain ⟨hlt, hp⟩ := hfew
      have hm52 : m = 2 ^ 52 := by
        refine Nat.le_antisymm ?_ (hnormal.full.resolve_left hp)
        have hlt' : (m : ℚ) < (2 ^ 52 + 1 : Nat) := by
          push_cast
          linarith
        have : m < 2 ^ 52 + 1 := by exact_mod_cast hlt'
        omega
      subst hm52
      have hquarter : below (2 ^ 52) p = 1 / 4 := by
        unfold below
        rw [if_pos ⟨rfl, by omega⟩]
      rw [hquarter] at hlow
      push_cast at hlow
      have hplaceOf : placeOf y = p - 1 := by
        refine placeOf_eq hy (by omega) ?_ (.inl ?_) <;> rw [hpred, hmul] <;> nlinarith
      refine .of_place hplaceOf (k := 2 ^ 53) ?_ ?_
      · have htwice : y / 2 ^ (p - 1) = 2 * t := by
          rw [hpred, ← ht]
          field_simp
        rw [htwice]
        push_cast
        exact ⟨by linarith, by linarith, fun _ => by norm_num⟩
      · rw [hpred]
        push_cast
        ring
    · -- As many digits.
      have hplaceOf : placeOf y = p := by
        refine placeOf_eq hy hplace ?_ ?_
        · rw [hmul]
          nlinarith
        · by_cases hp : p = -1074
          · exact .inr hp
          · left
            have : (2 : ℚ) ^ 52 ≤ t := by
              by_contra hlt
              exact hfew ⟨lt_of_not_ge hlt, hp⟩
            rw [hmul]
            nlinarith
      refine .of_place hplaceOf (k := m) ?_ rfl
      rw [ht]
      refine ⟨by linarith, hhigh, ?_⟩
      rintro (heq | heq)
      · exact heven (.inl (le_antisymm (by linarith) hlow))
      · exact heven (.inr heq)

/-- Zero reads back as zero. -/
theorem contains_zero (p : Int) : (ofSignificand 0 p).contains 0 = true := by
  have hpos : (0 : ℚ) < 2 ^ p := by positivity
  have hlow : (ofSignificand 0 p).low = 0 := by
    show dyadic 0 (p - 1) = 0
    rw [dyadic_eq, Nat.cast_zero, zero_mul]
  show (decide ((ofSignificand 0 p).low ≤ 0) && decide (0 ≤ (ofSignificand 0 p).high)) = true
  rw [hlow, high_eq, Bool.and_eq_true, decide_eq_true_eq, decide_eq_true_eq]
  exact ⟨le_rfl, by positivity⟩

/-- A magnitude reads back. -/
theorem contains_self (hm : 0 < m) : (ofSignificand m p).contains (m * 2 ^ p) = true := by
  have hpos : (0 : ℚ) < 2 ^ p := by positivity
  have hbelow : 0 < below m p := by
    unfold below
    split <;> norm_num
  apply contains_of_lt hm <;> rw [mul_div_cancel_right₀ _ hpos.ne'] <;> linarith

end ReadsBack

namespace Number

variable {x y z : ℚ}

/-- **A magnitude is rounded to itself.** -/
theorem Rounds.self (h : Rounds x z) (hx : 0 < x) (hz : 0 < z) : Rounds z z := by
  obtain ⟨k, hk, rfl⟩ := h
  have hkpos : 0 < k := by
    rcases Nat.eq_zero_or_pos k with rfl | hk
    · simp at hz
    · exact hk
  exact ReadsBack.rounds_of_contains (hk.normal hx) hz (ReadsBack.contains_self hkpos)

theorem natAbs_num_div_den (hx : 0 ≤ x) : (x.num.natAbs : ℚ) / x.den = x := by
  conv_rhs => rw [← Rat.num_div_den x]
  rw [← Int.cast_natCast, Int.natAbs_of_nonneg (Rat.num_nonneg.mpr hx)]

theorem rounds_of_pos (hx : 0 < x) : Rounds x (roundMagnitude x.num.natAbs x.den) := by
  have hrounds := rounds_roundMagnitude (Int.natAbs_pos.mpr (Rat.num_pos.mpr hx).ne') x.den_pos
  rwa [natAbs_num_div_den hx.le] at hrounds

/-- The magnitude above those with the given number of digits before the point. -/
def threshold (digits : Nat) : ℚ := (Nat.pow 2 digits : Nat)

theorem two_lt_threshold {digits : Nat} (h : 1 < digits) : 2 < threshold digits := by
  unfold threshold
  rw [Nat.pow_eq, Nat.cast_pow]
  exact lt_self_pow₀ (by norm_num) h

/-- What a positive rational is rounded to. -/
theorem round_of_rounds (hx : 0 < x) (h : Rounds x z) :
    round x = if threshold 1024 ≤ z then .infinite false else .finite z := by
  have hpositive : ¬ x < 0 := not_lt.mpr hx.le
  unfold round threshold
  rw [if_neg hx.ne', ← h.unique (rounds_of_pos hx)]
  exact if_congr Iff.rfl (by rw [decide_eq_false hpositive]) (if_neg hpositive)

/-- Small magnitudes are numbers. -/
theorem round_of_le_two (hx : 0 < x) (h : Rounds x z) (hz : z ≤ 2) : round x = .finite z := by
  rw [round_of_rounds hx h, if_neg (not_le.mpr (hz.trans_lt (two_lt_threshold (by norm_num))))]

/-- **The error of rounding** is less than the last of 53 digits, if there are so many. -/
theorem Rounds.near (h : Rounds x z) (hx : 2 ^ (-1021 : Int) ≤ x) : |z - x| ≤ x / 2 ^ 53 := by
  obtain ⟨k, hk, rfl⟩ := h
  have hpositive : 0 < x := lt_of_lt_of_le (by positivity) hx
  have hpos : (0 : ℚ) < 2 ^ placeOf x := by positivity
  have hplace : -1074 < placeOf x := by
    have hlog := (zpow_le_iff hpositive).mp hx
    unfold placeOf
    omega
  have hdigits := le_of_placeOf hpositive hplace
  have herror : |(k : ℚ) - x / 2 ^ placeOf x| ≤ 1 / 2 := by
    have hlower := hk.lower
    have hupper := hk.upper
    rw [abs_le]
    constructor <;> linarith
  calc |k * 2 ^ placeOf x - x| = |(k : ℚ) - x / 2 ^ placeOf x| * 2 ^ placeOf x := by
        rw [← abs_of_pos hpos, ← abs_mul, abs_of_pos hpos, sub_mul, div_mul_cancel₀ _ hpos.ne']
    _ ≤ 1 / 2 * 2 ^ placeOf x := by gcongr
    _ ≤ x / 2 ^ 53 := by linarith

/-- **Positive rationals with one magnitude are rounded to the same number.** -/
theorem round_eq_of_rounds (hx : 0 < x) (hy : 0 < y) (h : Rounds x z) (h' : Rounds y z) :
    round x = round y := by
  rw [round_of_rounds hx h, round_of_rounds hy h']

/-! ### Ranges that rounding does not leave -/

section Ranges

variable {m n k : Nat} {e : Int}

/-- **Rounding does not leave a range** whose ends are whole numbers at the
    last place or above it. -/
theorem Rounds.bounds (h : Rounds x y) (hplace : placeOf x ≤ e) (hlow : m * 2 ^ e ≤ x)
    (hhigh : x ≤ n * 2 ^ e) : m * 2 ^ e ≤ y ∧ y ≤ n * 2 ^ e := by
  obtain ⟨k, hk, rfl⟩ := h
  have hpos : (0 : ℚ) < 2 ^ placeOf x := by positivity
  -- Both ends are whole numbers at the last place, too.
  obtain ⟨j, hj⟩ : ∃ j : Nat, (2 : ℚ) ^ e = (2 ^ j : Nat) * 2 ^ placeOf x := by
    refine ⟨(e - placeOf x).toNat, ?_⟩
    rw [Nat.cast_pow, Nat.cast_ofNat, ← zpow_natCast, ← zpow_add₀ two_ne_zero]
    congr 1
    omega
  rw [hj, ← mul_assoc, ← Nat.cast_mul] at hlow hhigh
  rw [← le_div_iff₀ hpos] at hlow
  rw [← div_le_iff₀ hpos] at hhigh
  have hlower := hk.lower
  have hupper := hk.upper
  rw [hj, ← mul_assoc, ← mul_assoc, ← Nat.cast_mul, ← Nat.cast_mul]
  constructor
  · have hlt : ((m * 2 ^ j : Nat) : ℚ) < (k + 1 : Nat) := by
      rw [Nat.cast_add_one]
      linarith
    have hle : m * 2 ^ j ≤ k := Nat.lt_succ_iff.mp (by exact_mod_cast hlt)
    gcongr
  · have hlt : (k : ℚ) < (n * 2 ^ j + 1 : Nat) := by
      rw [Nat.cast_add_one]
      linarith
    have hle : k ≤ n * 2 ^ j := Nat.lt_succ_iff.mp (by exact_mod_cast hlt)
    gcongr

/-- The last place of what has few digits before the point is low. -/
theorem placeOf_le (hx : 0 < x) (hlt : x < 2 ^ k) (hdigits : k ≤ e + 53) :
    placeOf x ≤ e := by
  have hlog := (lt_zpow_iff hx).mp (by rwa [← zpow_natCast] at hlt)
  unfold placeOf
  omega

theorem lt_threshold {digits : Nat} (h : k < digits) : 2 ^ k < threshold digits := by
  unfold threshold
  rw [Nat.pow_eq, Nat.cast_pow, Nat.cast_ofNat]
  exact pow_lt_pow_right₀ one_lt_two h

/-- **Rounding keeps to a range** whose ends are multiples of a power of two, if what is rounded has
    few digits before the point. -/
theorem round_between (hx : 0 < x) (hlt : x < 2 ^ k) (hsmall : k ≤ 53)
    (hdigits : k ≤ e + 53) (hlow : m * 2 ^ e ≤ x) (hhigh : x ≤ n * 2 ^ e) :
    ∃ y, round x = .finite y ∧ m * 2 ^ e ≤ y ∧ y ≤ n * 2 ^ e := by
  have hrounds := rounds_of_pos hx
  generalize roundMagnitude x.num.natAbs x.den = y at hrounds
  obtain ⟨-, hle⟩ := hrounds.bounds (m := 0) (n := 2 ^ k) (e := 0)
    (placeOf_le hx hlt (by omega)) (by simpa using hx.le) (by simpa using hlt.le)
  have hnumber : ¬ threshold 1024 ≤ y := by
    rw [not_le]
    calc y ≤ 2 ^ k := by simpa using hle
      _ < threshold 1024 := lt_threshold (by omega)
  refine ⟨y, ?_, hrounds.bounds (placeOf_le hx hlt hdigits) hlow hhigh⟩
  rw [round_of_rounds hx hrounds, if_neg hnumber]

/-- **What is not below all numbers is not rounded to zero.** -/
theorem Rounds.pos (h : Rounds x y) (hx : 2 ^ (-1074 : Int) ≤ x) : 0 < y := by
  obtain ⟨k, hk, rfl⟩ := h
  have hpositive : 0 < x := lt_of_lt_of_le (by positivity) hx
  have hpos : (0 : ℚ) < 2 ^ placeOf x := by positivity
  have hle : 2 ^ placeOf x ≤ x := by
    rcases (placeOf_ge x).eq_or_lt with hplace | hplace
    · rwa [← hplace]
    · linarith [le_of_placeOf hpositive hplace]
  have hone : 1 ≤ x / 2 ^ placeOf x := by rwa [le_div_iff₀ hpos, one_mul]
  have hupper := hk.upper
  have hk' : (0 : ℚ) < k := by linarith
  positivity

theorem round_ne_zero (hx : 2 ^ (-1074 : Int) ≤ x) : round x ≠ .finite 0 := by
  have hpositive : 0 < x := lt_of_lt_of_le (by positivity) hx
  have hrounds := rounds_of_pos hpositive
  rw [round_of_rounds hpositive hrounds]
  split
  · exact nofun
  · rw [Ne, finite.injEq]
    exact (hrounds.pos hx).ne'

end Ranges

/-! ### Integers next to a rational -/

theorem truncRat_of_nonneg (h : 0 ≤ x) : truncRat x = ⌊x⌋ := by
  unfold truncRat
  rw [Rat.floor_def', Int.tdiv_eq_ediv_of_nonneg (Rat.num_nonneg.mpr h)]

theorem nearestRat_of_nonneg (h : 0 ≤ x) : nearestRat x = ⌊x + 1 / 2⌋ := by
  have hden : (x.den : ℚ) ≠ 0 := by exact_mod_cast x.den_ne_zero
  have hhalf : x + 1 / 2 = ((2 * x.num.natAbs + x.den : Nat) : ℚ) / (2 * x.den : Nat) := by
    conv_lhs => rw [← natAbs_num_div_den h]
    push_cast
    field_simp
  unfold nearestRat
  rw [if_neg (not_lt.mpr h), hhalf, Rat.floor_natCast_div_natCast]
  exact Int.natCast_div _ _

end Number

end StyleBook
