import Mathlib.Tactic.IntervalCases
import Mathlib.Tactic.Positivity
import Parametric.Proofs.Number.Rounding

/-!
# Reading decimals

A decimal near an exact value is read as the floating-point number with that value.
-/

namespace Parametric.Number

open Float.Model Float.Model.UnpackedFloat

variable {m m₁ m₂ n : Nat} {v : ℚ} {e e₁ e₂ : Int} {d : Dyadic}

/-! ## Products and quotients -/

def Dyadic.value (d : Dyadic) : ℚ := d.mantissa * 2 ^ d.exponent

theorem Dyadic.nearest_value (d : Dyadic) : d.Nearest d.value := by
  have hpos := two_zpow_pos d.exponent
  have hreach : 0 < d.reach := by
    unfold reach
    split <;> norm_num
  refine ⟨?_, ?_, ?_⟩
  · exact mul_le_mul_of_nonneg_right (by linarith) hpos.le
  · exact mul_le_mul_of_nonneg_right (by linarith) hpos.le
  · rintro (h | h)
    · have := mul_right_cancel₀ hpos.ne' h
      linarith
    · have := mul_right_cancel₀ hpos.ne' h
      linarith

theorem Dyadic.unpacked_eq (hm : 0 < d.mantissa) (hs : d.negative = false) :
    d.unpacked = .finite .positive d.mantissa d.exponent hm := by
  rw [unpacked, dif_neg hm.ne', sign, hs]
  rfl

theorem Dyadic.Nearest.mul (h : d.Nearest (m₁ * 2 ^ e₁ * (m₂ * 2 ^ e₂))) (hd : d.Canonical)
    (hm : 0 < d.mantissa) (hs : d.negative = false) {h₁ : 0 < m₁} {h₂ : 0 < m₂}
    (hlong : 52 ≤ (m₁ * m₂).log2) :
    UnpackedFloat.mul Format.binary64 (.finite .positive m₁ e₁ h₁) (.finite .positive m₂ e₂ h₂) =
      d.unpacked := by
  rw [d.unpacked_eq hm hs]
  refine h.roundWithAccuracy hd hm ?_ (.inl hlong) _
  show _ = ((m₁ * m₂ : Nat) : ℚ)
  rw [zpow_add₀ (by norm_num)]
  push_cast
  have := (two_zpow_pos e₁).ne'
  have := (two_zpow_pos e₂).ne'
  field_simp

theorem describes_accuracyOfFraction (hn : 0 < n) :
    Describes (m / n) (accuracyOfFraction (m % n) n) ((m : ℚ) / n) := by
  have hn' : (0 : ℚ) < n := by exact_mod_cast hn
  have hlt := Nat.mod_lt m hn
  have hsplit : (m : ℚ) / n = (m / n : Nat) + ((m % n : Nat) : ℚ) / n := by
    have : ((n * (m / n) + m % n : Nat) : ℚ) = m := by rw [Nat.div_add_mod]
    push_cast at this
    field_simp
    linarith
  rw [hsplit]
  generalize m / n = q
  generalize m % n = r at hlt
  have hlt' : (r : ℚ) / n < 1 := by
    rw [div_lt_one hn']
    exact_mod_cast hlt
  unfold accuracyOfFraction
  split
  case isTrue hr => simp [Describes, hr]
  case isFalse hr =>
    have hpos : (0 : ℚ) < (r : ℚ) / n := div_pos (by exact_mod_cast Nat.pos_of_ne_zero hr) hn'
    rcases hc : compare (2 * r) n with _ | _ | _
    · have h2 : ((2 * r : Nat) : ℚ) < n := by exact_mod_cast Nat.compare_eq_lt.mp hc
      push_cast at h2
      have : (r : ℚ) / n < 1 / 2 := by
        rw [div_lt_div_iff₀ hn' (by norm_num)]
        linarith
      exact ⟨by linarith, by linarith⟩
    · have h2 : ((2 * r : Nat) : ℚ) = n := by exact_mod_cast Nat.compare_eq_eq.mp hc
      push_cast at h2
      show _ = _
      rw [← h2]
      have : (r : ℚ) ≠ 0 := by exact_mod_cast hr
      field_simp
    · have h2 : (n : ℚ) < ((2 * r : Nat) : ℚ) := by exact_mod_cast Nat.compare_eq_gt.mp hc
      push_cast at h2
      have : 1 / 2 < (r : ℚ) / n := by
        rw [div_lt_div_iff₀ (by norm_num) hn']
        linarith
      exact ⟨by linarith, by linarith⟩

theorem Dyadic.Nearest.div (h : d.Nearest (m₁ * 2 ^ e₁ / (m₂ * 2 ^ e₂))) (hd : d.Canonical)
    (hm : 0 < d.mantissa) (hs : d.negative = false) {h₁ : 0 < m₁} {h₂ : 0 < m₂} :
    UnpackedFloat.div Format.binary64 (.finite .positive m₁ e₁ h₁) (.finite .positive m₂ e₂ h₂) =
      d.unpacked := by
  rw [d.unpacked_eq hm hs]
  have htarget : Format.binary64.targetExponent (totalExponent m₁ e₁ - totalExponent m₂ e₂) =
      max ((m₁.log2 : Int) + e₁ - (m₂.log2 + e₂) - 53) (-1074) := by
    simp only [Format.targetExponent, totalExponent, Format.mantissaBits, Format.minExponent]
    norm_num
    omega
  simp only [UnpackedFloat.div, divCore, htarget]
  generalize ht : min (e₁ - e₂) (max ((m₁.log2 : Int) + e₁ - (m₂.log2 + e₂) - 53) (-1074)) = t
  generalize hk : (e₁ - e₂ - t).toNat = k
  have hkt : e₁ - e₂ = t + (k : Int) := by omega
  refine h.roundWithAccuracy hd hm ?_ ?_ _
  · have hcut := describes_accuracyOfFraction (m := m₁ <<< k) h₂
    rw [Nat.shiftLeft_eq] at hcut ⊢
    have heq : (m₁ * 2 ^ e₁ / (m₂ * 2 ^ e₂) : ℚ) / 2 ^ t = ((m₁ * 2 ^ k : Nat) : ℚ) / m₂ := by
      have hexp : (2 : ℚ) ^ e₁ = 2 ^ e₂ * 2 ^ t * 2 ^ k := by
        rw [show e₁ = e₂ + t + (k : Int) by omega, zpow_add₀ (by norm_num), zpow_add₀ (by norm_num),
          zpow_natCast]
      have := (two_zpow_pos e₂).ne'
      have := (two_zpow_pos t).ne'
      have : (m₂ : ℚ) ≠ 0 := by exact_mod_cast h₂.ne'
      rw [hexp]
      push_cast
      field_simp
    rwa [heq]
  · -- `k` was chosen for a quotient of at least 53 bits, unless the result is subnormal
    by_cases hleast : t ≤ -1074
    · exact .inr hleast
    · left
      have hlong : m₂.log2 + 53 ≤ m₁.log2 + k := by omega
      have hquotient : 2 ^ 52 ≤ (m₁ <<< k) / m₂ := by
        rw [Nat.le_div_iff_mul_le h₂, Nat.shiftLeft_eq]
        calc 2 ^ 52 * m₂ ≤ 2 ^ 52 * 2 ^ (m₂.log2 + 1) := Nat.mul_le_mul_left _ Nat.lt_log2_self.le
          _ = 2 ^ (m₂.log2 + 53) := by rw [← Nat.pow_add]; congr 1; omega
          _ ≤ 2 ^ (m₁.log2 + k) := Nat.pow_le_pow_right (by norm_num) hlong
          _ = 2 ^ m₁.log2 * 2 ^ k := Nat.pow_add _ _ _
          _ ≤ m₁ * 2 ^ k := Nat.mul_le_mul_right _ (Nat.log2_self_le h₁.ne')
      exact (Nat.le_log2 (by positivity)).mpr hquotient

/-! ## Scientific notation -/

theorem Dyadic.Nearest.lt_top (h : d.Nearest v) (hd : d.Canonical) : v < 2 ^ (1024 : Int) :=
  (h.lt hd).trans_le (zpow_le_zpow_right₀ (by norm_num) (by have := hd.le_most; omega))

theorem Dyadic.Nearest.bottom_le (h : d.Nearest v) (hd : d.Canonical) (hm : 0 < d.mantissa) :
    2 ^ (-1075 : Int) ≤ v := by
  have hone : (1 : ℚ) ≤ d.mantissa := by exact_mod_cast hm
  calc (2 : ℚ) ^ (-1075 : Int) = 1 / 2 * 2 ^ (-1074 : Int) := by
        rw [show (-1075 : Int) = -1074 - 1 by norm_num, zpow_sub₀ (by norm_num), zpow_one]
        ring
    _ ≤ 1 / 2 * 2 ^ d.exponent :=
      mul_le_mul_of_nonneg_left (zpow_le_zpow_right₀ (by norm_num) hd.least_le) (by norm_num)
    _ ≤ (d.mantissa - d.reach) * 2 ^ d.exponent :=
      mul_le_mul_of_nonneg_right (by linarith [d.reach_le]) (two_zpow_pos _).le
    _ ≤ v := h.low

theorem zpow_toNat (a : ℚ) {e : Int} (he : 0 ≤ e) : a ^ e = a ^ e.toNat := by
  rw [← zpow_natCast, Int.toNat_of_nonneg he]

theorem zpow_toNat_neg (a : ℚ) {e : Int} (he : e ≤ 0) : a ^ e = (a ^ (-e).toNat)⁻¹ := by
  rw [← zpow_natCast, Int.toNat_of_nonneg (by omega), zpow_neg, inv_inv]

theorem zpow_eq_div (a : ℚ) (e : Int) : a ^ e = a ^ e.toNat / a ^ (-e).toNat := by
  rcases le_total 0 e with he | he
  · rw [show (-e).toNat = 0 by omega, pow_zero, div_one, zpow_toNat a he]
  · rw [show e.toNat = 0 by omega, pow_zero, one_div, zpow_toNat_neg a he]

theorem Dyadic.Nearest.ne_zero {y : ℚ} (h : d.Nearest (m * y)) (hm : 0 < d.mantissa) : m ≠ 0 := by
  rintro rfl
  have := h.pos hm
  simp at this

theorem Dyadic.Nearest.ofScientific (h : d.Nearest (m * 10 ^ e)) (hd : d.Canonical)
    (hm : 0 < d.mantissa) (hs : d.negative = false) :
    UnpackedFloat.ofScientific Format.binary64 m e = d.unpacked := by
  have hten : (0 : ℚ) < 10 ^ e := zpow_pos (by norm_num) e
  have hm0 := h.ne_zero hm
  have hone : (1 : ℚ) ≤ m := by exact_mod_cast Nat.pos_of_ne_zero hm0
  -- the shortcuts for huge and tiny exponents are not taken: the value would be out of the range of `d`
  have hhigh : ¬e > 2 ^ 11 := fun he => by
    have htop := h.lt_top hd
    have : (2 : ℚ) ^ (1024 : Int) ≤ m * 10 ^ e :=
      calc (2 : ℚ) ^ (1024 : Int) ≤ 2 ^ e := zpow_le_zpow_right₀ (by norm_num) (by omega)
        _ ≤ 10 ^ e := zpow_le_zpow_left₀ (by omega) (by norm_num) (by norm_num)
        _ ≤ m * 10 ^ e := le_mul_of_one_le_left hten.le hone
    linarith
  have hlow : ¬e < -((2 ^ 11 : Int) + m.log2) := fun he => by
    have hbottom := h.bottom_le hd hm
    have hlog : (m : ℚ) < 2 ^ ((m.log2 : Int) + 1) := by
      rw [show (m.log2 : Int) + 1 = ((m.log2 + 1 : Nat) : Int) by push_cast; rfl, zpow_natCast]
      exact_mod_cast Nat.lt_log2_self
    have hbase := zpow_le_zpow_left₀ (show 0 ≤ -e by omega) (show (0 : ℚ) ≤ 2 by norm_num)
      (show (2 : ℚ) ≤ 10 by norm_num)
    have hsmall : (10 : ℚ) ^ e ≤ 2 ^ e :=
      calc (10 : ℚ) ^ e = (10 ^ (-e))⁻¹ := by rw [zpow_neg, inv_inv]
        _ ≤ (2 ^ (-e))⁻¹ := inv_anti₀ (two_zpow_pos _) hbase
        _ = 2 ^ e := by rw [zpow_neg, inv_inv]
    have : (m : ℚ) * 10 ^ e < 2 ^ (-1075 : Int) :=
      calc (m : ℚ) * 10 ^ e < 2 ^ ((m.log2 : Int) + 1) * 10 ^ e := mul_lt_mul_of_pos_right hlog hten
        _ ≤ 2 ^ ((m.log2 : Int) + 1) * 2 ^ e := mul_le_mul_of_nonneg_left hsmall (two_zpow_pos _).le
        _ = 2 ^ ((m.log2 : Int) + 1 + e) := (zpow_add₀ (by norm_num) _ _).symm
        _ ≤ 2 ^ (-1075 : Int) := zpow_le_zpow_right₀ (by norm_num) (by omega)
    linarith
  unfold UnpackedFloat.ofScientific
  rw [dif_neg hm0, if_neg hhigh, if_neg hlow]
  split
  case isTrue he =>
    -- the mantissa is shifted first, so that the product is long enough to be rounded once
    have hv : ((m <<< 53 : Nat) : ℚ) * 2 ^ (-(53 : Nat) : Int) * (((10 ^ e.toNat : Nat) : ℚ) * 2 ^ (0 : Int)) =
        m * 10 ^ e := by
      rw [zpow_toNat 10 he, Nat.shiftLeft_eq, zpow_neg, zpow_natCast, zpow_zero]
      push_cast
      field_simp
      norm_num
    have hlong : 2 ^ 52 ≤ m <<< 53 * 10 ^ e.toNat := by
      rw [Nat.shiftLeft_eq]
      calc 2 ^ 52 ≤ 1 * 2 ^ 53 * 1 := by norm_num
        _ ≤ m * 2 ^ 53 * 10 ^ e.toNat :=
          Nat.mul_le_mul (Nat.mul_le_mul_right _ (Nat.pos_of_ne_zero hm0)) (Nat.pow_pos (by norm_num))
    rw [← hv] at h
    exact h.mul hd hm hs ((Nat.le_log2 (by omega)).mpr hlong)
  case isFalse he =>
    have hv : (m : ℚ) * 2 ^ (0 : Int) / (((10 ^ (-e).toNat : Nat) : ℚ) * 2 ^ (0 : Int)) = m * 10 ^ e := by
      rw [zpow_toNat_neg 10 (by omega), zpow_zero, mul_one, mul_one, div_eq_mul_inv]
      push_cast
      rfl
    rw [← hv] at h
    exact h.div hd hm hs

/-! ## Small operands -/

/-- The exact value of a natural number that fits into a mantissa. -/
def Dyadic.ofNat (n : Nat) : Dyadic := ⟨false, n <<< (52 - n.log2), -(52 - n.log2 : Nat)⟩

theorem value_ofNat (n : Nat) : (Dyadic.ofNat n).value = n := by
  simp only [Dyadic.value, Dyadic.ofNat, Nat.shiftLeft_eq, zpow_neg, zpow_natCast]
  push_cast
  field_simp

theorem canonical_ofNat (hn : n ≠ 0) (hlt : n < 2 ^ 53) : (Dyadic.ofNat n).Canonical := by
  have hlog : n.log2 < 53 := (Nat.log2_lt hn).mpr hlt
  have hexp : n.log2 + (52 - n.log2) = 52 := by omega
  have hlow : 2 ^ 52 ≤ n <<< (52 - n.log2) := by
    rw [Nat.shiftLeft_eq]
    calc 2 ^ 52 = 2 ^ n.log2 * 2 ^ (52 - n.log2) := by rw [← Nat.pow_add, hexp]
      _ ≤ n * 2 ^ (52 - n.log2) := Nat.mul_le_mul_right _ (Nat.log2_self_le hn)
  have hhigh : n <<< (52 - n.log2) < 2 ^ 53 := by
    rw [Nat.shiftLeft_eq]
    calc n * 2 ^ (52 - n.log2) < 2 ^ (n.log2 + 1) * 2 ^ (52 - n.log2) :=
          Nat.mul_lt_mul_of_pos_right Nat.lt_log2_self (by positivity)
      _ = 2 ^ 53 := by rw [← Nat.pow_add]; congr 1; omega
  exact ⟨hhigh, by simp only [Dyadic.ofNat]; omega, by simp only [Dyadic.ofNat]; omega, .inl hlow⟩

theorem le_mantissa_ofNat (hn : n ≠ 0) (hlt : n < 2 ^ 53) : 2 ^ 52 ≤ (Dyadic.ofNat n).mantissa :=
  (canonical_ofNat hn hlt).full.resolve_right (by simp only [Dyadic.ofNat]; omega)

theorem ofFloat?_toFloat (hn : n ≠ 0) (hlt : n < 2 ^ 53) :
    Dyadic.ofFloat? n.toUInt64.toFloat = some (Dyadic.ofNat n) := by
  have hd := canonical_ofNat hn hlt
  have hlog : n.log2 < 53 := (Nat.log2_lt hn).mpr hlt
  have hlong := le_mantissa_ofNat hn hlt
  have hm : 0 < (Dyadic.ofNat n).mantissa := by omega
  have hnat : n.toUInt64.toNat = n := by
    rw [Nat.toUInt64_eq, UInt64.toNat_ofNat']
    omega
  have hround : UnpackedFloat.ofUInt64 Format.binary64 n.toUInt64 = (Dyadic.ofNat n).unpacked := by
    have hcompare : compare (n : Int) 0 = .gt := by
      rw [compare_gt_iff_gt]
      omega
    have hshift : ((0 : Int) - max ((n.log2 : Int) + 0 - 52) (-1074)).toNat = 52 - n.log2 := by omega
    simp only [UnpackedFloat.ofUInt64, UnpackedFloat.ofNat, UnpackedFloat.ofInt, UnpackedFloat.normalize, hnat,
      hcompare, UnpackedFloat.round, targetExponent_eq, decreaseExponent, Int.toNat_natCast, hshift]
    simp only [zero_sub]
    rw [Dyadic.unpacked_eq hm rfl]
    refine (Dyadic.nearest_value _).roundWithAccuracy hd hm ?_ (.inl ?_) _
    · show _ = _
      rw [div_eq_iff (two_zpow_pos _).ne']
      rfl
    · exact (Nat.le_log2 hm.ne').mpr hlong
  show Dyadic.ofFloat? (.ofModel (.pack (UnpackedFloat.ofUInt64 Format.binary64 n.toUInt64))) = _
  rw [hround]
  exact hd.ofFloat?_pack

section Powers

variable {x : Float} {p : Dyadic}

theorem Dyadic.Nearest.ofFloat?_mul (h : d.Nearest (m * p.value)) (hd : d.Canonical) (hm : 0 < d.mantissa)
    (hs : d.negative = false) (hlt : m < 2 ^ 53) (hp : Dyadic.ofFloat? x = some p) (hps : p.negative = false)
    (hpm : 0 < p.mantissa) : Dyadic.ofFloat? (m.toUInt64.toFloat * x) = some d := by
  have hm0 := h.ne_zero hm
  have hlong := le_mantissa_ofNat hm0 hlt
  have hfirst := unpack_of_ofFloat? (ofFloat?_toFloat hm0 hlt)
  have hsecond := unpack_of_ofFloat? hp
  rw [Dyadic.unpacked_eq (by omega) rfl] at hfirst
  rw [Dyadic.unpacked_eq hpm hps] at hsecond
  rw [← value_ofNat m] at h
  have hproduct : 52 ≤ ((Dyadic.ofNat m).mantissa * p.mantissa).log2 :=
    (Nat.le_log2 (by positivity)).mpr (hlong.trans (Nat.le_mul_of_pos_right _ hpm))
  show Dyadic.ofFloat? (.ofModel (.pack
    (UnpackedFloat.mul _ m.toUInt64.toFloat.toModel.unpack x.toModel.unpack))) = _
  rw [hfirst, hsecond, h.mul hd hm hs hproduct]
  exact hd.ofFloat?_pack

theorem Dyadic.Nearest.ofFloat?_div (h : d.Nearest (m / p.value)) (hd : d.Canonical) (hm : 0 < d.mantissa)
    (hs : d.negative = false) (hlt : m < 2 ^ 53) (hp : Dyadic.ofFloat? x = some p) (hps : p.negative = false)
    (hpm : 0 < p.mantissa) : Dyadic.ofFloat? (m.toUInt64.toFloat / x) = some d := by
  have hm0 := Dyadic.Nearest.ne_zero (div_eq_mul_inv (m : ℚ) p.value ▸ h) hm
  have hlong := le_mantissa_ofNat hm0 hlt
  have hfirst := unpack_of_ofFloat? (ofFloat?_toFloat hm0 hlt)
  have hsecond := unpack_of_ofFloat? hp
  rw [Dyadic.unpacked_eq (by omega) rfl] at hfirst
  rw [Dyadic.unpacked_eq hpm hps] at hsecond
  rw [← value_ofNat m] at h
  show Dyadic.ofFloat? (.ofModel (.pack
    (UnpackedFloat.div _ m.toUInt64.toFloat.toModel.unpack x.toModel.unpack))) = _
  rw [hfirst, hsecond, h.div hd hm hs]
  exact hd.ofFloat?_pack

end Powers

/-! ## Powers of ten -/

def isPowerOfTen (x : Float) (k : Nat) : Bool :=
  (Dyadic.ofFloat? x).any fun d =>
    !d.negative && d.mantissa != 0 && d.mantissa * twoTo d.exponent.toNat == tenTo k * twoTo (-d.exponent).toNat

theorem isPowerOfTen_table : ∀ k, (h : k < Float.exactlyRepresentablePowersOfTen.size) →
    isPowerOfTen Float.exactlyRepresentablePowersOfTen[k] k := by
  decide +kernel

theorem exists_of_isPowerOfTen {x : Float} {k : Nat} (h : isPowerOfTen x k) :
    ∃ p, Dyadic.ofFloat? x = some p ∧ p.negative = false ∧ 0 < p.mantissa ∧ p.value = 10 ^ k := by
  simp only [isPowerOfTen, Option.any_eq_true, Bool.and_eq_true, Bool.not_eq_true', bne_iff_ne, beq_iff_eq] at h
  obtain ⟨p, hp, ⟨hs, hm⟩, hv⟩ := h
  refine ⟨p, hp, hs, Nat.pos_of_ne_zero hm, ?_⟩
  have hv' : (p.mantissa : ℚ) * 2 ^ p.exponent.toNat = 10 ^ k * 2 ^ (-p.exponent).toNat := by exact_mod_cast hv
  rw [Dyadic.value, zpow_eq_div, ← mul_div_assoc, hv']
  field_simp

theorem Dyadic.Nearest.ofFloat?_ofScientific (h : d.Nearest (m * 10 ^ e)) (hd : d.Canonical)
    (hm : 0 < d.mantissa) (hs : d.negative = false) :
    Dyadic.ofFloat? (Float.ofScientific m (decide (e < 0)) e.natAbs) = some d := by
  unfold Float.ofScientific
  split
  case isTrue hsmall =>
    have hindex : e.natAbs < Float.exactlyRepresentablePowersOfTen.size := Nat.lt_succ_of_le hsmall.2
    have htable : isPowerOfTen Float.exactlyRepresentablePowersOfTen[e.natAbs] e.natAbs :=
      isPowerOfTen_table _ hindex
    obtain ⟨p, hp, hps, hpm, hpv⟩ := exists_of_isPowerOfTen htable
    by_cases he : e < 0
    · have hv : (10 : ℚ) ^ e = p.value⁻¹ := by
        rw [hpv, zpow_toNat_neg 10 he.le]
        congr 2
        omega
      rw [hv, ← div_eq_mul_inv] at h
      simp only [he, decide_true, if_true]
      exact h.ofFloat?_div hd hm hs hsmall.1 hp hps hpm
    · have hv : (10 : ℚ) ^ e = p.value := by
        rw [hpv, zpow_toNat 10 (by omega)]
        congr 1
        omega
      rw [hv] at h
      simp only [he, decide_false]
      exact h.ofFloat?_mul hd hm hs hsmall.1 hp hps hpm
  case isFalse =>
    have he : (if decide (e < 0) = true then Int.negOfNat e.natAbs else Int.ofNat e.natAbs) = e := by
      by_cases he : e < 0
      · rw [if_pos (by simpa using he), Int.negOfNat_eq, Int.ofNat_eq_natCast]
        omega
      · rw [if_neg (by simpa using he)]
        exact Int.natAbs_of_nonneg (by omega)
    simp only [he]
    show Dyadic.ofFloat? (.ofModel (.pack (UnpackedFloat.ofScientific _ m e))) = _
    rw [h.ofScientific hd hm hs]
    exact hd.ofFloat?_pack

end Parametric.Number
