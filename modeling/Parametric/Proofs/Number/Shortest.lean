import Mathlib.Data.List.TakeWhile
import Mathlib.Data.Nat.Cast.Field
import Parametric.Proofs.Number.Scientific

/-!
# Shortest decimals

The decimal that a number is written with is rounded to the number. Seventeen digits always suffice.
-/

namespace Parametric.Number

variable {d : Dyadic} {a b n : Nat} {e q : Int}

def Decimal.value (c : Decimal) : ℚ := c.digits * 10 ^ c.exponent

/-! ## Comparing decimals with exact values -/

theorem ten_zpow_pos (e : Int) : (0 : ℚ) < 10 ^ e := zpow_pos (by norm_num) e

theorem compareScaled_eq (a : Nat) (e : Int) (b : Nat) (q : Int) :
    compareScaled a e b q = compare ((a : ℚ) * 10 ^ e) (b * 2 ^ q) := by
  have hscale : (0 : ℚ) < 10 ^ (-e).toNat * 2 ^ (-q).toNat := by positivity
  have hleft : ((a * tenTo e.toNat * twoTo (-q).toNat : Nat) : ℚ) =
      a * 10 ^ e * (10 ^ (-e).toNat * 2 ^ (-q).toNat) := by
    rw [zpow_eq_div, tenTo_eq, twoTo_eq]
    push_cast
    field_simp
  have hright : ((b * twoTo q.toNat * tenTo (-e).toNat : Nat) : ℚ) =
      b * 2 ^ q * (10 ^ (-e).toNat * 2 ^ (-q).toNat) := by
    rw [zpow_eq_div, tenTo_eq, twoTo_eq]
    push_cast
    field_simp
  unfold compareScaled
  rcases lt_trichotomy ((a : ℚ) * 10 ^ e) (b * 2 ^ q) with h | h | h
  · rw [compare_lt_iff_lt.mpr h, compare_lt_iff_lt, ← Nat.cast_lt (α := ℚ), hleft, hright]
    exact mul_lt_mul_of_pos_right h hscale
  · rw [compare_eq_iff_eq.mpr h, compare_eq_iff_eq, ← Nat.cast_inj (R := ℚ), hleft, hright, h]
  · rw [compare_gt_iff_gt.mpr h, compare_gt_iff_gt, ← Nat.cast_lt (α := ℚ), hleft, hright]
    exact mul_lt_mul_of_pos_right h hscale

theorem two_zpow_sub_two (e : Int) : (2 : ℚ) ^ (e - 2) = 2 ^ e / 4 := by
  rw [zpow_sub₀ (by norm_num)]
  norm_num

theorem value_low (hm : 0 < d.mantissa) :
    (d.rounding.low : ℚ) * 2 ^ d.rounding.scale = (d.mantissa - d.reach) * 2 ^ d.exponent := by
  simp only [Dyadic.rounding, Dyadic.reach, two_zpow_sub_two, twoTo_eq, beq_iff_eq, Bool.and_eq_true,
    decide_eq_true_eq]
  split
  · rw [Nat.cast_sub (by omega)]
    push_cast
    ring
  · rw [Nat.cast_sub (by omega)]
    push_cast
    ring

theorem value_high :
    (d.rounding.high : ℚ) * 2 ^ d.rounding.scale = (d.mantissa + 1 / 2) * 2 ^ d.exponent := by
  simp only [Dyadic.rounding, two_zpow_sub_two]
  push_cast
  ring

theorem nearest_of_has (hm : 0 < d.mantissa) {c : Decimal} (h : d.rounding.has c) : d.Nearest c.value := by
  simp only [Interval.has, compareScaled_eq, value_low hm, value_high, Bool.or_eq_true, Bool.and_eq_true,
    beq_iff_eq, compare_gt_iff_gt, compare_lt_iff_lt, compare_eq_iff_eq] at h
  have hlow : (d.mantissa - d.reach) * 2 ^ d.exponent ≤ (d.mantissa + 1 / 2) * (2 : ℚ) ^ d.exponent := by
    refine mul_le_mul_of_nonneg_right ?_ (two_zpow_pos _).le
    unfold Dyadic.reach
    split <;> linarith
  rcases h with ⟨hl, hh⟩ | ⟨hc, heq⟩
  · exact ⟨hl.le, hh.le, fun htie => (htie.elim (hl.ne' ·) (hh.ne ·)).elim⟩
  · have heven : d.mantissa % 2 = 0 := by simpa [Dyadic.rounding] using hc
    rcases heq with heq | heq
    · exact ⟨heq.ge, heq.le.trans hlow, fun _ => heven⟩
    · exact ⟨hlow.trans heq.ge, heq.le, fun _ => heven⟩

theorem has_of_lt (hm : 0 < d.mantissa) {c : Decimal} (hl : (d.mantissa - d.reach) * 2 ^ d.exponent < c.value)
    (hh : c.value < (d.mantissa + 1 / 2) * 2 ^ d.exponent) : d.rounding.has c := by
  simp only [Interval.has, compareScaled_eq, value_low hm, value_high, Bool.or_eq_true, Bool.and_eq_true,
    beq_iff_eq, compare_gt_iff_gt, compare_lt_iff_lt]
  exact .inl ⟨hl, hh⟩

/-! ## Grids of decimals -/

theorem onGrid?_nearest (hm : 0 < d.mantissa) {c : Decimal} (h : d.onGrid? e = some c) : d.Nearest c.value := by
  simp only [Dyadic.onGrid?] at h
  split at h
  case h_1 hbelow habove =>
    cases h
    split
    · exact nearest_of_has hm habove
    · exact nearest_of_has hm hbelow
  case h_2 hbelow _ =>
    cases h
    exact nearest_of_has hm hbelow
  case h_3 _ habove =>
    cases h
    exact nearest_of_has hm habove
  case h_4 => cases h

theorem gridFloor_bounds (d : Dyadic) (e : Int) :
    (d.gridFloor e : ℚ) * 10 ^ e ≤ d.value ∧ d.value < (d.gridFloor e + 1) * 10 ^ e := by
  have hden : 0 < 2 ^ (-d.exponent).toNat * 10 ^ e.toNat := by positivity
  have hscale : (0 : ℚ) < 2 ^ (-d.exponent).toNat * 10 ^ (-e).toNat := by positivity
  have hvalue : d.value * (2 ^ (-d.exponent).toNat * 10 ^ (-e).toNat) =
      ((d.mantissa * 2 ^ d.exponent.toNat * 10 ^ (-e).toNat : Nat) : ℚ) := by
    rw [Dyadic.value, zpow_eq_div]
    push_cast
    field_simp
  have hgrid : ∀ n : Nat, (n : ℚ) * 10 ^ e * (2 ^ (-d.exponent).toNat * 10 ^ (-e).toNat) =
      ((n * (2 ^ (-d.exponent).toNat * 10 ^ e.toNat) : Nat) : ℚ) := by
    intro n
    rw [zpow_eq_div]
    push_cast
    field_simp
  unfold Dyadic.gridFloor
  simp only [twoTo_eq, tenTo_eq]
  generalize hn : d.mantissa * 2 ^ d.exponent.toNat * 10 ^ (-e).toNat = num at hvalue
  constructor
  · rw [← mul_le_mul_iff_of_pos_right hscale, hvalue, hgrid]
    exact_mod_cast Nat.div_mul_le_self _ _
  · rw [← mul_lt_mul_iff_of_pos_right hscale, hvalue, ← Nat.cast_succ, hgrid]
    have := Nat.lt_mul_div_succ num hden
    rw [mul_comm] at this
    exact_mod_cast this

/-! ## Seventeen digits -/

theorem digitCount_pos : 0 < digitCount n := Nat.length_toDigits_pos

theorem lt_ten_pow_digitCount (n : Nat) : n < 10 ^ digitCount n :=
  (Nat.length_toDigits_le_iff (by norm_num) digitCount_pos).mp le_rfl

theorem ten_pow_le (hn : 0 < n) : 10 ^ (digitCount n - 1) ≤ n := by
  by_contra hlt
  have hpos := digitCount_pos (n := n)
  by_cases hone : digitCount n - 1 = 0
  · rw [hone, pow_zero] at hlt
    omega
  · have := (Nat.length_toDigits_le_iff (b := 10) (by norm_num) (Nat.pos_of_ne_zero hone)).mpr (not_le.mp hlt)
    unfold digitCount at *
    omega

theorem ten_zpow_magnitude_le (hm : 0 < d.mantissa) : (10 : ℚ) ^ (d.magnitude - 1) ≤ d.value := by
  have hvalue : d.value =
      ((d.mantissa * 2 ^ d.exponent.toNat : Nat) : ℚ) / ((2 ^ (-d.exponent).toNat : Nat) : ℚ) := by
    rw [Dyadic.value, zpow_eq_div]
    push_cast
    rw [mul_div_assoc]
  unfold Dyadic.magnitude
  simp only [twoTo_eq, tenTo_eq, beq_iff_eq]
  have hnum : 0 < d.mantissa * 2 ^ d.exponent.toNat := by positivity
  have hden : 0 < 2 ^ (-d.exponent).toNat := by positivity
  rw [hvalue]
  generalize d.mantissa * 2 ^ d.exponent.toNat = num at hnum
  generalize 2 ^ (-d.exponent).toNat = den at hden
  have hnum' : (0 : ℚ) < num := by exact_mod_cast hnum
  have hden' : (0 : ℚ) < den := by exact_mod_cast hden
  rw [le_div_iff₀ hden']
  split
  case isTrue hge =>
    have hpos : 0 < num / den := Nat.div_pos hge hden
    have hcount := digitCount_pos (n := num / den)
    have hle : 10 ^ (digitCount (num / den) - 1) * den ≤ num :=
      (Nat.mul_le_mul_right _ (ten_pow_le hpos)).trans (Nat.div_mul_le_self _ _)
    rw [show (digitCount (num / den) : Int) - 1 = ((digitCount (num / den) - 1 : Nat) : Int) by omega, zpow_natCast]
    exact_mod_cast hle
  case isFalse hlt =>
    have hcount := digitCount_pos (n := den / num)
    generalize hl : digitCount (den / num) = length at hcount
    split
    case isTrue heq =>
      rw [show (2 : Int) - length - 1 = -((length - 1 : Nat) : Int) by omega, zpow_neg, zpow_natCast,
        inv_mul_le_iff₀ (by positivity), mul_comm]
      exact_mod_cast heq.ge
    case isFalse =>
      have hsmall : den < num * 10 ^ length := by
        have := lt_ten_pow_digitCount (den / num)
        rw [hl, Nat.div_lt_iff_lt_mul hnum] at this
        rwa [mul_comm]
      rw [show (1 : Int) - length - 1 = -(length : Int) by omega, zpow_neg, zpow_natCast,
        inv_mul_le_iff₀ (by positivity), mul_comm]
      exact_mod_cast hsmall.le

/-- A grid that is finer than the distance to the neighbours has a point that is rounded to the number. -/
theorem onGrid?_isSome (hm : 0 < d.mantissa) (hfine : (10 : ℚ) ^ e < (d.reach + 1 / 2) * 2 ^ d.exponent) :
    ∃ c, d.onGrid? e = some c := by
  obtain ⟨hle, hlt⟩ := gridFloor_bounds d e
  have hreach : 0 < d.reach := by
    unfold Dyadic.reach
    split <;> norm_num
  have hpos := two_zpow_pos d.exponent
  have hsome : d.rounding.has ⟨d.gridFloor e, e⟩ ∨ d.rounding.has ⟨d.gridFloor e + 1, e⟩ := by
    by_contra hnone
    -- with both neighbours outside, the interval would fit between two points of the grid
    obtain ⟨hbelow, habove⟩ := not_or.mp hnone
    have hlow : (d.gridFloor e : ℚ) * 10 ^ e ≤ (d.mantissa - d.reach) * 2 ^ d.exponent := by
      by_contra hgt
      refine hbelow (has_of_lt hm (not_le.mp hgt) (hle.trans_lt ?_))
      exact mul_lt_mul_of_pos_right (by linarith) hpos
    have hhigh : (d.mantissa + 1 / 2) * (2 : ℚ) ^ d.exponent ≤ (d.gridFloor e + 1) * 10 ^ e := by
      by_contra hgt
      refine habove (has_of_lt hm ?_ ?_)
      · refine lt_trans (mul_lt_mul_of_pos_right (by linarith) hpos) (hlt.trans_eq ?_)
        simp [Decimal.value]
      · simpa [Decimal.value] using not_le.mp hgt
    linarith
  simp only [Dyadic.onGrid?]
  rcases hsome with h | h <;> rw [h] <;> split <;> simp_all

theorem ten_zpow_fine (hd : d.Canonical) (hm : 0 < d.mantissa) :
    (10 : ℚ) ^ (d.magnitude - 17) < (d.reach + 1 / 2) * 2 ^ d.exponent := by
  have hpos := two_zpow_pos d.exponent
  have hsplit : (10 : ℚ) ^ (d.magnitude - 17) = 10 ^ (d.magnitude - 1) / 10 ^ 16 := by
    rw [show d.magnitude - 17 = d.magnitude - 1 - (16 : Nat) by push_cast; ring, zpow_sub₀ (by norm_num),
      zpow_natCast]
  have hle : (10 : ℚ) ^ (d.magnitude - 1) ≤ d.mantissa * 2 ^ d.exponent := ten_zpow_magnitude_le hm
  rw [hsplit, div_lt_iff₀ (by norm_num)]
  refine hle.trans_lt ?_
  rw [mul_right_comm]
  refine mul_lt_mul_of_pos_right ?_ hpos
  have hmax : (d.mantissa : ℚ) < 2 ^ 53 := by exact_mod_cast hd.mantissa_lt
  unfold Dyadic.reach
  split
  case isTrue h =>
    rw [h.1]
    norm_num
  case isFalse =>
    norm_num at hmax ⊢
    linarith

/-! ## The shortest decimal -/

theorem ten_pow_trailing_dvd (n : Nat) :
    10 ^ ((Nat.toDigits 10 n).reverse.takeWhile (· == '0')).length ∣ n := by
  generalize hz : (Nat.toDigits 10 n).reverse.takeWhile (· == '0') = z
  have hzeros : z = List.replicate z.length '0' := by
    refine List.eq_replicate_of_mem fun c hc => ?_
    rw [← hz] at hc
    simpa using List.mem_takeWhile_imp hc
  have hsplit := (Nat.toDigits 10 n).reverse.takeWhile_append_dropWhile (p := (· == '0'))
  rw [hz, hzeros, ← List.reverse_inj, List.reverse_reverse, List.reverse_append, List.reverse_replicate] at hsplit
  have hvalue := Nat.ofDigitChars_ten_toDigits (n := n)
  rw [← hsplit, Nat.ofDigitChars_append, Nat.ofDigitChars_replicate_zero] at hvalue
  exact ⟨_, hvalue.symm⟩

theorem value_reduce (c : Decimal) : c.reduce.value = c.value := by
  have hdvd := ten_pow_trailing_dvd c.digits
  simp only [Decimal.reduce, beq_iff_eq, tenTo_eq]
  split
  case isTrue hzero => simp [Decimal.value, hzero]
  case isFalse =>
    simp only [Decimal.value]
    rw [Nat.cast_div hdvd (by positivity), zpow_add₀ (by norm_num), zpow_natCast]
    push_cast
    field_simp

/-- What a number is written with is rounded to the number. -/
theorem nearest_shortest (hd : d.Canonical) (hm : 0 < d.mantissa) : d.Nearest d.shortest.value := by
  unfold Dyadic.shortest
  rw [if_neg (by simpa using hm.ne')]
  split
  case h_1 found hfound =>
    obtain ⟨n, -, hn⟩ := List.exists_of_findSome?_eq_some hfound
    rw [value_reduce]
    exact onGrid?_nearest hm hn
  case h_2 hnone =>
    obtain ⟨c, hc⟩ := onGrid?_isSome hm (ten_zpow_fine hd hm)
    have := List.findSome?_eq_none_iff.mp hnone 16 (by simp)
    rw [show d.magnitude - ((16 + 1 : Nat) : Int) = d.magnitude - 17 by norm_num, hc] at this
    cases this

end Parametric.Number
