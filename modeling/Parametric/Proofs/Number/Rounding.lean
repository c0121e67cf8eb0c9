import Mathlib.Algebra.Order.Field.Power
import Mathlib.Algebra.Order.Ring.Rat
import Mathlib.Tactic.FieldSimp
import Mathlib.Tactic.Linarith
import Mathlib.Tactic.NormNum
import Mathlib.Tactic.Ring
import Parametric.Number.Shortest
import Parametric.Proofs.Number.Bits

/-!
# Rounding to the nearest floating-point number

A positive number that lies closer to an exact value than half the distance to its neighbours is
rounded to that value, and half way to a neighbour if the mantissa is even.
-/

namespace Parametric.Number

open Float.Model Float.Model.UnpackedFloat

/-! ## Accuracy of a cut mantissa -/

/-- Whether `x`, cut to the natural number `m`, is described by an accuracy. -/
def Describes (m : Nat) (accuracy : Accuracy) (x : ℚ) : Prop :=
  match accuracy with
  | .exact => x = m
  | .inexact .lt => m < x ∧ x < m + 1 / 2
  | .inexact .eq => x = m + 1 / 2
  | .inexact .gt => m + 1 / 2 < x ∧ x < m + 1

variable {m k n : Nat} {accuracy : Accuracy} {x v : ℚ} {e : Int} {d : Dyadic}

theorem Describes.le (h : Describes m accuracy x) : (m : ℚ) ≤ x := by
  unfold Describes at h
  split at h
  · exact h.ge
  · exact h.1.le
  · linarith
  · linarith [h.1]

theorem Describes.lt (h : Describes m accuracy x) : x < m + 1 := by
  unfold Describes at h
  split at h
  · linarith
  · linarith [h.2]
  · linarith
  · exact h.2

theorem describes_shiftRightOne {em : ExtendedMantissa} (h : Describes em.mantissa em.accuracy x) :
    Describes em.shiftRightOne.mantissa em.shiftRightOne.accuracy (x / 2) := by
  obtain ⟨m, round, sticky⟩ := em
  obtain ⟨k, rfl | rfl⟩ : ∃ k, m = 2 * k ∨ m = 2 * k + 1 := ⟨m / 2, by omega⟩
  · have hk : 2 * k / 2 = k := by omega
    have hodd : (2 * k % 2 != 0) = false := by simp
    cases round <;> cases sticky <;>
      simp only [ExtendedMantissa.shiftRightOne, ExtendedMantissa.accuracy, Describes, hk, hodd,
        Bool.or_false, Bool.or_true, Nat.cast_mul, Nat.cast_ofNat] at h ⊢
    all_goals first | linarith | (constructor <;> linarith [h.1, h.2]) | (constructor <;> linarith)
  · have hk : (2 * k + 1) / 2 = k := by omega
    have hodd : ((2 * k + 1) % 2 != 0) = true := by simp
    cases round <;> cases sticky <;>
      simp only [ExtendedMantissa.shiftRightOne, ExtendedMantissa.accuracy, Describes, hk, hodd,
        Bool.or_false, Bool.or_true, Nat.cast_mul, Nat.cast_ofNat, Nat.cast_add, Nat.cast_one] at h ⊢
    all_goals first | linarith | (constructor <;> linarith [h.1, h.2]) | (constructor <;> linarith)

theorem describes_shiftRight {em : ExtendedMantissa} (h : Describes em.mantissa em.accuracy x) (n : Nat) :
    Describes (em >>> n).mantissa (em >>> n).accuracy (x / 2 ^ n) := by
  induction n with
  | zero =>
    rw [pow_zero, div_one]
    exact h
  | succ n ih =>
    have hstep := describes_shiftRightOne ih
    rw [div_div, ← pow_succ] at hstep
    exact hstep

theorem describes_ofMantissaAndAccuracy (h : Describes m accuracy x) :
    Describes (ExtendedMantissa.ofMantissaAndAccuracy m accuracy).mantissa
      (ExtendedMantissa.ofMantissaAndAccuracy m accuracy).accuracy x := by
  cases accuracy with
  | exact => exact h
  | inexact o => cases o <;> exact h

/-- A cut mantissa is rounded to the nearest natural number, half way to the even one. -/
theorem Describes.roundToNearestEven (h : Describes m accuracy x) (hlow : (k : ℚ) - 1 / 2 ≤ x)
    (hhigh : x ≤ k + 1 / 2) (htie : x = k - 1 / 2 ∨ x = k + 1 / 2 → k % 2 = 0) :
    accuracy.roundToNearestEven m = k := by
  have hlt : m < k + 1 := by
    have : (m : ℚ) < ((k + 1 : Nat) : ℚ) := by push_cast; linarith [h.le]
    exact_mod_cast this
  have hgt : k < m + 2 := by
    have : (k : ℚ) < ((m + 2 : Nat) : ℚ) := by push_cast; linarith [h.lt]
    exact_mod_cast this
  obtain rfl | rfl : k = m ∨ k = m + 1 := by omega
  · unfold Describes at h
    split at h
    · rfl
    · rfl
    · have := htie (.inr h)
      simp only [Accuracy.roundToNearestEven]
      omega
    · linarith [h.1]
  · push_cast at hlow hhigh htie
    unfold Describes at h
    split at h
    · linarith
    · linarith [h.2]
    · have := htie (.inl (by linarith))
      simp only [Accuracy.roundToNearestEven]
      omega
    · rfl

/-! ## Rounding to an exact value -/

/-- How far below an exact value numbers are still rounded to it, in units of its last place; the
neighbour below a power of two is nearer. -/
def Dyadic.reach (d : Dyadic) : ℚ := if d.mantissa = 2 ^ 52 ∧ -1074 < d.exponent then 1 / 4 else 1 / 2

/-- A number that is rounded to the exact value. -/
structure Dyadic.Nearest (d : Dyadic) (v : ℚ) : Prop where
  low : (d.mantissa - d.reach) * 2 ^ d.exponent ≤ v
  high : v ≤ (d.mantissa + 1 / 2) * 2 ^ d.exponent
  tie : v = (d.mantissa - d.reach) * 2 ^ d.exponent ∨ v = (d.mantissa + 1 / 2) * 2 ^ d.exponent →
    d.mantissa % 2 = 0

theorem two_zpow_pos (e : Int) : (0 : ℚ) < 2 ^ e := zpow_pos (by norm_num) e

theorem two_zpow_lt {a b : Int} : (2 : ℚ) ^ a < 2 ^ b ↔ a < b := zpow_lt_zpow_iff_right₀ (by norm_num)

theorem Dyadic.reach_le (d : Dyadic) : d.reach ≤ 1 / 2 := by
  unfold reach
  split <;> norm_num

theorem Dyadic.Nearest.pos (h : d.Nearest v) (hd : 0 < d.mantissa) : 0 < v := by
  have hm : (1 : ℚ) ≤ d.mantissa := by exact_mod_cast hd
  have := mul_pos (show (0 : ℚ) < d.mantissa - d.reach by linarith [d.reach_le]) (two_zpow_pos d.exponent)
  linarith [h.low]

theorem targetExponent_eq (m : Nat) (e : Int) :
    Format.binary64.targetExponent (totalExponent m e) = max (m.log2 + e - 52) (-1074) := by
  simp only [Format.targetExponent, totalExponent, Format.mantissaBits, Format.minExponent]
  norm_num
  omega

theorem Describes.magnitude (h : Describes m accuracy (v / 2 ^ e)) (hm : m ≠ 0) :
    2 ^ (m.log2 + e) ≤ v ∧ v < 2 ^ (m.log2 + e + 1) := by
  have hpos := two_zpow_pos e
  have hle : ((2 ^ m.log2 : Nat) : ℚ) ≤ m := by exact_mod_cast Nat.log2_self_le hm
  have hlt : (m : ℚ) + 1 ≤ ((2 ^ (m.log2 + 1) : Nat) : ℚ) := by exact_mod_cast Nat.lt_log2_self
  push_cast at hle hlt
  constructor
  · rw [zpow_add₀ (by norm_num), zpow_natCast]
    calc (2 : ℚ) ^ m.log2 * 2 ^ e ≤ m * 2 ^ e := mul_le_mul_of_nonneg_right hle hpos.le
      _ ≤ v := (le_div_iff₀ hpos).mp h.le
  · rw [show (m.log2 : Int) + e + 1 = ((m.log2 + 1 : Nat) : Int) + e by push_cast; ring,
      zpow_add₀ (by norm_num), zpow_natCast]
    calc v < (m + 1) * 2 ^ e := (div_lt_iff₀ hpos).mp h.lt
      _ ≤ 2 ^ (m.log2 + 1) * 2 ^ e := mul_le_mul_of_nonneg_right hlt hpos.le

theorem Dyadic.Nearest.lt (h : d.Nearest v) (hd : d.Canonical) : v < 2 ^ (d.exponent + 53) := by
  have hm : (d.mantissa : ℚ) + 1 ≤ 2 ^ 53 := by exact_mod_cast hd.mantissa_lt
  rw [zpow_add₀ (by norm_num)]
  calc v ≤ (d.mantissa + 1 / 2) * 2 ^ d.exponent := h.high
    _ < 2 ^ 53 * 2 ^ d.exponent := mul_lt_mul_of_pos_right (by linarith) (two_zpow_pos _)
    _ = 2 ^ d.exponent * 2 ^ (53 : Int) := by rw [mul_comm]; norm_num

/-- The exponent that a number is rounded at: that of the exact value, or one less for a number
just below a power of two. -/
theorem Dyadic.Nearest.targetExponent (h : d.Nearest v) (hd : d.Canonical)
    (hx : Describes m accuracy (v / 2 ^ e)) (hlong : 52 ≤ m.log2 ∨ e ≤ -1074) :
    max ((m.log2 : Int) + e - 52) (-1074) = d.exponent ∨
      max ((m.log2 : Int) + e - 52) (-1074) = d.exponent - 1 ∧ d.mantissa = 2 ^ 52 ∧
        -1074 < d.exponent ∧ v < 2 ^ 52 * 2 ^ d.exponent := by
  have hleast := hd.least_le
  have hpos := two_zpow_pos d.exponent
  have hreach := d.reach_le
  by_cases hm : m = 0
  · -- what is cut to zero is smaller than the least number
    subst hm
    have he : e ≤ -1074 := hlong.resolve_left (by simp)
    have hv : v < 2 ^ e := by
      have := (div_lt_iff₀ (two_zpow_pos e)).mp hx.lt
      simpa using this
    have hq : d.exponent = -1074 := hd.full.resolve_left fun hfull => by
      have hm : (2 : ℚ) ^ 52 ≤ d.mantissa := by exact_mod_cast hfull
      have hle : 1 * (2 : ℚ) ^ d.exponent ≤ (d.mantissa - d.reach) * 2 ^ d.exponent :=
        mul_le_mul_of_nonneg_right (by linarith) hpos.le
      have := two_zpow_lt.mp (show (2 : ℚ) ^ d.exponent < 2 ^ e by linarith [h.low])
      omega
    left
    simp only [Nat.log2_zero]
    omega
  · obtain ⟨hlow, hhigh⟩ := hx.magnitude hm
    have htop := two_zpow_lt.mp (hlow.trans_lt (h.lt hd))
    by_cases hfull : 2 ^ 52 ≤ d.mantissa
    case neg =>
      have := hd.full.resolve_left hfull
      left
      omega
    have hpow : (2 : ℚ) ^ (d.exponent + 52) = 2 ^ 52 * 2 ^ d.exponent := by
      rw [zpow_add₀ (by norm_num), mul_comm]
      norm_num
    rcases le_or_gt ((2 : ℚ) ^ 52 * 2 ^ d.exponent) v with hv | hv
    · have := two_zpow_lt.mp ((hpow.le.trans hv).trans_lt hhigh)
      left
      omega
    · have hbelow := two_zpow_lt.mp (hlow.trans_lt (hv.trans_eq hpow.symm))
      have hm : d.mantissa = 2 ^ 52 := by
        have hlt : (d.mantissa : ℚ) - d.reach < 2 ^ 52 :=
          lt_of_mul_lt_mul_right (h.low.trans_lt hv) hpos.le
        have : (d.mantissa : ℚ) < ((2 ^ 52 + 1 : Nat) : ℚ) := by push_cast; linarith
        have : d.mantissa < 2 ^ 52 + 1 := by exact_mod_cast this
        omega
      by_cases hq : d.exponent = -1074
      · left
        omega
      · right
        have hhalf : (2 : ℚ) ^ (d.exponent + 51) ≤ v := by
          rw [zpow_add₀ (by norm_num), mul_comm]
          calc (2 : ℚ) ^ (51 : Int) * 2 ^ d.exponent ≤ (d.mantissa - d.reach) * 2 ^ d.exponent := by
                rw [hm]
                exact mul_le_mul_of_nonneg_right (by norm_num; linarith) hpos.le
            _ ≤ v := h.low
        have := two_zpow_lt.mp (hhalf.trans_lt hhigh)
        refine ⟨?_, hm, ?_, hv⟩ <;> omega

theorem shiftToTargetExponent_of_lt (hm : m < 2 ^ 53) (he : -1074 ≤ e) :
    shiftToTargetExponent Format.binary64 m e .exact = (⟨m, false, false⟩, e) := by
  have hlog : m.log2 ≤ 52 := by
    by_cases h : m = 0
    · simp [h]
    · have := (Nat.log2_lt h).mpr hm
      omega
  have hshift : (max ((m.log2 : Int) + e - 52) (-1074) - e).toNat = 0 := by omega
  simp only [shiftToTargetExponent, shiftToExponent, targetExponent_eq, hshift]
  simp only [Nat.cast_zero, add_zero]
  rfl

theorem shiftToTargetExponent_carry (he : -1074 ≤ e) :
    shiftToTargetExponent Format.binary64 (2 ^ 53) e .exact = (⟨2 ^ 52, false, false⟩, e + 1) := by
  have hshift : (max (((2 ^ 53).log2 : Int) + e - 52) (-1074) - e).toNat = 1 := by
    rw [Nat.log2_two_pow]
    omega
  simp only [shiftToTargetExponent, shiftToExponent, targetExponent_eq, hshift]
  rfl

theorem roundWithAccuracy_of_shifts {em carried : ExtendedMantissa} {t q : Int} (s : Sign)
    (hfirst : shiftToTargetExponent Format.binary64 m e accuracy = (em, t))
    (hsecond : shiftToTargetExponent Format.binary64 em.roundedMantissa t .exact = (carried, q))
    (hpos : 0 < carried.mantissa) :
    roundWithAccuracy Format.binary64 s m e accuracy = .finite s carried.mantissa q hpos := by
  simp only [roundWithAccuracy, hfirst, hsecond]
  rw [dif_neg hpos.ne']

theorem Describes.shiftToTargetExponent {t : Int} (hx : Describes m accuracy (v / 2 ^ e))
    (ht : max ((m.log2 : Int) + e - 52) (-1074) = t) (het : e ≤ t) :
    ∃ em, shiftToTargetExponent Format.binary64 m e accuracy = (em, t) ∧
      Describes em.mantissa em.accuracy (v / 2 ^ t) := by
  have he : e + ((t - e).toNat : Int) = t := by omega
  refine ⟨ExtendedMantissa.ofMantissaAndAccuracy m accuracy >>> (t - e).toNat, ?_, ?_⟩
  · simp only [UnpackedFloat.shiftToTargetExponent, shiftToExponent, targetExponent_eq, ht, he]
  · have hcut := describes_shiftRight (describes_ofMantissaAndAccuracy hx) (t - e).toNat
    rwa [div_div, ← zpow_natCast, ← zpow_add₀ (by norm_num), he] at hcut

/-- A number near an exact value is rounded to it, from any cut of it that is long enough. -/
theorem Dyadic.Nearest.roundWithAccuracy (h : d.Nearest v) (hd : d.Canonical)
    (hm : 0 < d.mantissa) (hx : Describes m accuracy (v / 2 ^ e))
    (hlong : 52 ≤ m.log2 ∨ e ≤ -1074) (s : Sign) :
    roundWithAccuracy Format.binary64 s m e accuracy = .finite s d.mantissa d.exponent hm := by
  have hpos := two_zpow_pos d.exponent
  have hlow := (le_div_iff₀ hpos).mpr h.low
  rcases h.targetExponent hd hx hlong with ht | ⟨ht, htwo, hq, hv⟩
  · -- the cut has the exponent of the exact value, and the second shift does nothing
    obtain ⟨em, hfirst, hcut⟩ := hx.shiftToTargetExponent ht (by omega)
    have hrounded : em.roundedMantissa = d.mantissa := by
      refine hcut.roundToNearestEven (by linarith [d.reach_le]) ((div_le_iff₀ hpos).mpr h.high) ?_
      rintro (heq | heq)
      · refine h.tie (.inl ((div_eq_iff hpos.ne').mp ?_))
        linarith [d.reach_le]
      · exact h.tie (.inr ((div_eq_iff hpos.ne').mp heq))
    have hsecond : shiftToTargetExponent Format.binary64 em.roundedMantissa d.exponent .exact =
        (⟨d.mantissa, false, false⟩, d.exponent) := by
      rw [hrounded, shiftToTargetExponent_of_lt hd.mantissa_lt hd.least_le]
    exact roundWithAccuracy_of_shifts s hfirst hsecond hm
  · -- just below a power of two the cut is one bit longer, and rounding carries into the next exponent
    obtain ⟨em, hfirst, hcut⟩ := hx.shiftToTargetExponent ht (by omega)
    have hrounded : em.roundedMantissa = 2 ^ 53 := by
      have hdouble : v / 2 ^ (d.exponent - 1) = 2 * (v / 2 ^ d.exponent) := by
        rw [zpow_sub₀ (by norm_num), zpow_one]
        field_simp
      have hhigh := (div_lt_iff₀ hpos).mpr hv
      rw [Dyadic.reach, if_pos ⟨htwo, hq⟩, htwo] at hlow
      rw [hdouble] at hcut
      push_cast at hlow
      exact hcut.roundToNearestEven (by push_cast; linarith) (by push_cast; linarith) fun _ => by
        norm_num
    have hsecond := shiftToTargetExponent_carry (e := d.exponent - 1) (by omega)
    rw [← hrounded, sub_add_cancel] at hsecond
    rw [roundWithAccuracy_of_shifts s hfirst hsecond (by norm_num)]
    simp only [htwo]

end Parametric.Number
