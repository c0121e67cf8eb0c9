import Mathlib
import Parametric.Number.Binary

/-!
# Floating-point numbers and their exact values

The bits of a finite number give its exact value, and the exact value gives back the number.
-/

namespace Parametric.Number

open Float.Model Float.Model.UnpackedFloat

variable {x y : Float} {d : Dyadic}

theorem twoTo_eq (n : Nat) : twoTo n = 2 ^ n := rfl

theorem tenTo_eq (n : Nat) : tenTo n = 10 ^ n := rfl

/-- The exact values of floating-point numbers: the mantissa is as long as the exponent allows. -/
structure Dyadic.Canonical (d : Dyadic) : Prop where
  mantissa_lt : d.mantissa < 2 ^ 53
  least_le : -1074 ≤ d.exponent
  le_most : d.exponent ≤ 971
  full : 2 ^ 52 ≤ d.mantissa ∨ d.exponent = -1074

/-- The bits below the sign: the mantissa without its leading bit, and the biased exponent. -/
def Dyadic.magnitudeBits (d : Dyadic) : Nat :=
  if 2 ^ 52 ≤ d.mantissa then (d.exponent + 1075).toNat * 2 ^ 52 + (d.mantissa - 2 ^ 52)
  else d.mantissa

def Dyadic.bits (d : Dyadic) : Nat := (if d.negative then 2 ^ 63 else 0) + d.magnitudeBits

theorem Dyadic.sign_bits (d : Dyadic) : (if d.negative then 2 ^ 63 else 0) = d.negative.toNat * 2 ^ 63 := by
  cases d.negative with
  | true => rw [if_pos rfl, Bool.toNat_true, Nat.one_mul]
  | false => rw [if_neg (by decide), Bool.toNat_false, Nat.zero_mul]

theorem ofFloat?_iff : Dyadic.ofFloat? x = some d ↔ d.Canonical ∧ x.toBits.toNat = d.bits := by
  have hlt := x.toBits.toNat_lt
  generalize hb : x.toBits.toNat = b at hlt
  obtain ⟨negative, mantissa, exponent⟩ := d
  simp only [Dyadic.ofFloat?, twoTo_eq, hb, beq_iff_eq]
  constructor
  · intro h
    -- not finite, subnormal, normal: the cases of the exponent field
    have hsign : (if (b / 2 ^ 63 == 1) = true then 2 ^ 63 else 0) = b / 2 ^ 63 * 2 ^ 63 := by
      simp only [beq_iff_eq]
      split <;> omega
    split at h
    · cases h
    · split at h <;> obtain ⟨rfl, rfl, rfl⟩ := Dyadic.mk.inj (Option.some.inj h)
      · refine ⟨⟨by simp only; omega, by simp, by simp, .inr rfl⟩, ?_⟩
        simp only [Dyadic.bits, Dyadic.magnitudeBits, hsign]
        rw [if_neg (by omega)]
        omega
      · refine ⟨⟨by simp only; omega, by simp only; omega, by simp only; omega, .inl ?_⟩, ?_⟩
        · simp only
          omega
        · simp only [Dyadic.bits, Dyadic.magnitudeBits, hsign]
          rw [if_pos (by omega)]
          omega
  · rintro ⟨⟨hm, hleast, hmost, hfull⟩, rfl⟩
    simp only at hm hleast hmost hfull
    have hsigned : ∀ b, b / 2 ^ 63 = negative.toNat → (b / 2 ^ 63 == 1) = negative := fun b hb => by
      rw [hb]
      cases negative <;> rfl
    have hle := negative.toNat_le
    by_cases hl : 2 ^ 52 ≤ mantissa
    · have hbits : (Dyadic.mk negative mantissa exponent).bits =
          negative.toNat * 2 ^ 63 + ((exponent + 1075).toNat * 2 ^ 52 + (mantissa - 2 ^ 52)) := by
        rw [Dyadic.bits, Dyadic.sign_bits, Dyadic.magnitudeBits, if_pos hl]
      rw [hsigned _ (by omega), if_neg (by omega), if_neg (by omega)]
      simp only [Option.some.injEq, Dyadic.mk.injEq, true_and]
      omega
    · have hbits : (Dyadic.mk negative mantissa exponent).bits = negative.toNat * 2 ^ 63 + mantissa := by
        rw [Dyadic.bits, Dyadic.sign_bits, Dyadic.magnitudeBits, if_neg hl]
      rw [hsigned _ (by omega), if_neg (by omega), if_pos (by omega)]
      simp only [Option.some.injEq, Dyadic.mk.injEq, true_and]
      omega

theorem canonical_of_ofFloat? (h : Dyadic.ofFloat? x = some d) : d.Canonical := (ofFloat?_iff.mp h).1

theorem ofFloat?_inj (hx : Dyadic.ofFloat? x = some d) (hy : Dyadic.ofFloat? y = some d) : x = y := by
  have hbits := UInt64.toNat_inj.mp ((ofFloat?_iff.mp hx).2.trans (ofFloat?_iff.mp hy).2.symm)
  cases x with | ofModel a => cases y with | ofModel b =>
  cases a
  cases b
  cases hbits
  rfl

/-! ## The logical model of floating-point numbers -/

def Dyadic.sign (d : Dyadic) : Sign := if d.negative then .negative else .positive

/-- An exact value in the logical model of floating-point numbers. -/
def Dyadic.unpacked (d : Dyadic) : Float.Model.UnpackedFloat :=
  if h : d.mantissa = 0 then .zero d.sign
  else .finite d.sign d.mantissa d.exponent (Nat.pos_of_ne_zero h)

theorem toNat_packComponents (s : Sign) (e : BitVec 11) (m : BitVec 52) :
    (packComponents Format.binary64 s e m).toNat =
      s.toBitVec.toNat * 2 ^ 63 + e.toNat * 2 ^ 52 + m.toNat := by
  have he := e.isLt
  have hm := m.isLt
  simp only [packComponents, BitVec.toNat_append]
  rw [← Nat.shiftLeft_add_eq_or_of_lt hm, ← Nat.shiftLeft_add_eq_or_of_lt he]
  simp only [Nat.shiftLeft_eq]
  omega

theorem toNat_sign (d : Dyadic) : d.sign.toBitVec.toNat * 2 ^ 63 = if d.negative then 2 ^ 63 else 0 := by
  cases h : d.negative <;> simp [Dyadic.sign, h, Sign.toBitVec]

theorem Dyadic.Canonical.toNat_pack (h : d.Canonical) :
    (UnpackedFloat.pack Format.binary64 d.unpacked).toNat = d.bits := by
  have hlt := h.mantissa_lt
  have hleast := h.least_le
  have hmost := h.le_most
  unfold unpacked
  split
  case isTrue hz =>
    simp only [UnpackedFloat.pack, packedZero, toNat_packComponents, toNat_sign, bits, magnitudeBits, hz]
    simp
  case isFalse hz =>
    simp only [UnpackedFloat.pack]
    rw [if_neg (by simp [Format.exponentBias]; omega)]
    by_cases hl : 2 ^ 52 ≤ d.mantissa
    · have hlog : d.mantissa.log2 = 52 := (Nat.log2_eq_iff hz).mpr ⟨hl, hlt⟩
      rw [if_pos (by simp [hlog, Format.mantissaBits])]
      simp only [toNat_packComponents, toNat_sign, bits, magnitudeBits, if_pos hl, BitVec.toNat_ofNat]
      simp [Format.exponentBias]
      omega
    · have hlog : d.mantissa.log2 < 52 := (Nat.log2_lt hz).mpr (by omega)
      rw [if_neg (by simp [Format.mantissaBits]; omega)]
      simp only [toNat_packComponents, toNat_sign, bits, magnitudeBits, if_neg hl, BitVec.toNat_ofNat]
      simp
      omega

theorem Dyadic.Canonical.ofFloat?_pack (h : d.Canonical) :
    Dyadic.ofFloat? (.ofModel (.pack d.unpacked)) = some d :=
  ofFloat?_iff.mpr ⟨h, h.toNat_pack⟩

theorem toNat_unpackMantissa (b : BitVec 64) :
    (@unpackMantissa Format.binary64 b).toNat = b.toNat % 2 ^ 52 := by
  simp [unpackMantissa, BitVec.extractLsb_toNat]

theorem toNat_unpackExponent (b : BitVec 64) :
    (@unpackExponent Format.binary64 b).toNat = b.toNat / 2 ^ 52 % 2 ^ 11 := by
  simp [unpackExponent, BitVec.extractLsb_toNat, Nat.shiftRight_eq_div_pow]

theorem toNat_unpackSign (b : BitVec 64) :
    (@unpackSign Format.binary64 b).toNat = b.toNat / 2 ^ 63 := by
  have := b.isLt
  simp [unpackSign, BitVec.extractLsb_toNat, Nat.shiftRight_eq_div_pow]
  omega

theorem toNat_append_one (m : BitVec 52) : (1#1 ++ m).toNat = m.toNat + 2 ^ 52 := by
  have hm := m.isLt
  rw [BitVec.toNat_append, ← Nat.shiftLeft_add_eq_or_of_lt hm, Nat.add_comm]
  rfl

theorem ofBitVec_eq_sign (b : BitVec 1) (mantissa : Nat) (exponent : Int) :
    Sign.ofBitVec b = (Dyadic.mk (b.toNat == 1) mantissa exponent).sign := by
  have hb : b = 0#1 ∨ b = 1#1 := by
    have := b.isLt
    rcases Nat.lt_or_ge b.toNat 1 with h0 | h1
    · exact .inl (BitVec.eq_of_toNat_eq (by simp; omega))
    · exact .inr (BitVec.eq_of_toNat_eq (by simp; omega))
  rcases hb with rfl | rfl <;> rfl

theorem unpack_of_ofFloat? (h : Dyadic.ofFloat? x = some d) : x.toModel.unpack = d.unpacked := by
  have hm := toNat_unpackMantissa x.toBits.toBitVec
  have he := toNat_unpackExponent x.toBits.toBitVec
  have hs := toNat_unpackSign x.toBits.toBitVec
  rw [UInt64.toNat_toBitVec] at hm he hs
  simp only [Dyadic.ofFloat?, twoTo_eq, beq_iff_eq, ← hm, ← he, ← hs] at h
  show UnpackedFloat.unpack Format.binary64 x.toBits.toBitVec = d.unpacked
  generalize hmv : @unpackMantissa Format.binary64 x.toBits.toBitVec = m at h
  generalize hev : @unpackExponent Format.binary64 x.toBits.toBitVec = e at h
  generalize hsv : @unpackSign Format.binary64 x.toBits.toBitVec = s at h
  simp only [UnpackedFloat.unpack, hmv, hev, hsv]
  split at h
  case isTrue => cases h
  case isFalse hinf =>
    rw [if_neg (fun heq => hinf (by rw [heq]; rfl))]
    split at h
    case isTrue hzero =>
      rw [if_pos (BitVec.eq_of_toNat_eq hzero)]
      cases h
      have hz : m = 0#52 ↔ m.toNat = 0 := ⟨fun heq => by rw [heq]; rfl, fun heq => BitVec.eq_of_toNat_eq heq⟩
      by_cases hm0 : m.toNat = 0
      · rw [dif_pos (hz.mpr hm0), Dyadic.unpacked, dif_pos hm0]
        exact congrArg _ (ofBitVec_eq_sign s _ _)
      · rw [dif_neg (mt hz.mp hm0), Dyadic.unpacked, dif_neg hm0]
        simp only [ofBitVec_eq_sign s m.toNat (-1074), hzero]
        rfl
    case isFalse hnonzero =>
      rw [if_neg (fun heq => hnonzero (by rw [heq]; rfl))]
      cases h
      rw [Dyadic.unpacked, dif_neg (by simp only; omega)]
      simp only [ofBitVec_eq_sign s (m.toNat + 2 ^ 52) (e.toNat - 1075), toNat_append_one]
      rfl

theorem exists_ofFloat? (h : x.isFinite) : ∃ d, Dyadic.ofFloat? x = some d := by
  cases hd : Dyadic.ofFloat? x with
  | some d => exact ⟨d, rfl⟩
  | none =>
    exfalso
    have he := toNat_unpackExponent x.toBits.toBitVec
    rw [UInt64.toNat_toBitVec] at he
    simp only [Dyadic.ofFloat?, twoTo_eq, beq_iff_eq, ← he] at hd
    split at hd
    case isTrue hinf =>
      have hones : @unpackExponent Format.binary64 x.toBits.toBitVec = -1#11 :=
        BitVec.eq_of_toNat_eq hinf
      change (UnpackedFloat.unpack Format.binary64 x.toBits.toBitVec).isFinite = true at h
      simp only [UnpackedFloat.unpack] at h
      rw [if_pos hones] at h
      split at h <;> cases h
    case isFalse => split at hd <;> cases hd

/-! ## Signs -/

def Dyadic.abs (d : Dyadic) : Dyadic := { d with negative := false }

theorem ofFloat?_abs (h : Dyadic.ofFloat? x = some d) : Dyadic.ofFloat? x.abs = some d.abs := by
  have hc := canonical_of_ofFloat? h
  have hunpacked : d.unpacked.abs = d.abs.unpacked := by
    unfold Dyadic.unpacked
    by_cases hz : d.mantissa = 0
    · rw [dif_pos hz, dif_pos (show d.abs.mantissa = 0 from hz)]
      rfl
    · rw [dif_neg hz, dif_neg (show ¬d.abs.mantissa = 0 from hz)]
      rfl
  show Dyadic.ofFloat? (.ofModel (.pack x.toModel.unpack.abs)) = some d.abs
  rw [unpack_of_ofFloat? h, hunpacked]
  exact Dyadic.Canonical.ofFloat?_pack ⟨hc.mantissa_lt, hc.least_le, hc.le_most, hc.full⟩

theorem ofFloat?_zero : Dyadic.ofFloat? 0.0 = some ⟨false, 0, -1074⟩ := by
  decide +kernel

theorem unpack_zero : (0.0 : Float).toModel.unpack = .zero .positive :=
  unpack_of_ofFloat? ofFloat?_zero

theorem lt_zero_iff (h : Dyadic.ofFloat? x = some d) :
    x < 0.0 ↔ d.negative = true ∧ d.mantissa ≠ 0 := by
  show decide (x.toModel.unpack.lt (0.0 : Float).toModel.unpack = true) = true ↔ _
  rw [decide_eq_true_iff, unpack_of_ofFloat? h, unpack_zero, Dyadic.unpacked]
  split
  case isTrue hz => simp [UnpackedFloat.lt, UnpackedFloat.compare, hz]
  case isFalse hz =>
    cases hn : d.negative <;> simp [UnpackedFloat.lt, UnpackedFloat.compare, hz, Dyadic.sign, hn]

theorem abs_eq_self (hfinite : x.isFinite) (hneg : ¬x < 0.0) (hzero : x.toBits.toNat ≠ 2 ^ 63) : x.abs = x := by
  obtain ⟨d, hd⟩ := exists_ofFloat? hfinite
  obtain ⟨hc, hbits⟩ := ofFloat?_iff.mp hd
  have hnegative : d.negative = false := by
    cases hn : d.negative with
    | false => rfl
    | true =>
      have hm : d.mantissa = 0 := Decidable.byContradiction fun hm => hneg ((lt_zero_iff hd).mpr ⟨hn, hm⟩)
      refine absurd ?_ hzero
      rw [hbits, Dyadic.bits, Dyadic.magnitudeBits, hm, hn]
      simp
  have habs : d.abs = d := by rw [Dyadic.abs, ← hnegative]
  exact ofFloat?_inj (ofFloat?_abs hd) (habs ▸ hd)

theorem toNat_pack_abs_ne (u : Float.Model.UnpackedFloat) :
    (UnpackedFloat.pack Format.binary64 u.abs).toNat ≠ 2 ^ 63 := by
  have hpositive : ∀ (e : BitVec 11) (m : BitVec 52),
      (packComponents Format.binary64 .positive e m).toNat ≠ 2 ^ 63 := fun e m => by
    have he := e.isLt
    have hm := m.isLt
    rw [toNat_packComponents]
    simp only [Sign.toBitVec]
    simp
    omega
  cases u
  all_goals simp only [UnpackedFloat.abs, UnpackedFloat.pack, packedNaN, packedInfinity, packedZero]
  case notANumber | infinity | zero => exact hpositive _ _
  case finite =>
    split
    · exact hpositive _ _
    · split <;> exact hpositive _ _

theorem toBits_abs_ne (x : Float) : x.abs.toBits.toNat ≠ 2 ^ 63 := toNat_pack_abs_ne x.toModel.unpack

/-! ## Infinities -/

theorem isFinite_of_ofFloat? (h : Dyadic.ofFloat? x = some d) : x.isFinite = true := by
  show x.toModel.unpack.isFinite = true
  rw [unpack_of_ofFloat? h, Dyadic.unpacked]
  split <;> rfl

theorem ofFloat?_eq_none (h : x.isFinite = false) : Dyadic.ofFloat? x = none := by
  cases hd : Dyadic.ofFloat? x with
  | none => rfl
  | some d =>
    rw [isFinite_of_ofFloat? hd] at h
    cases h

theorem isNegativeSign_of_infinity {s : Sign} (h : x.toModel.unpack = .infinity s) :
    isNegativeSign x = true ↔ s = .negative := by
  have hs := toNat_unpackSign x.toBits.toBitVec
  rw [UInt64.toNat_toBitVec] at hs
  change UnpackedFloat.unpack Format.binary64 x.toBits.toBitVec = .infinity s at h
  simp only [UnpackedFloat.unpack] at h
  split at h
  · split at h
    · cases h
      rw [isNegativeSign, twoTo_eq, ← hs, ofBitVec_eq_sign _ 0 0, Dyadic.sign]
      simp only [beq_iff_eq]
      split <;> simp_all
    · cases h
  · split at h
    · split at h <;> cases h
    · cases h

theorem lt_zero_iff_of_not_finite (h : x.isFinite = false) :
    x < 0.0 ↔ x.isNaN = false ∧ isNegativeSign x = true := by
  show decide (x.toModel.unpack.lt (0.0 : Float).toModel.unpack = true) = true ↔
    x.toModel.unpack.isNaN = false ∧ _
  rw [decide_eq_true_iff, unpack_zero]
  change x.toModel.unpack.isFinite = false at h
  cases hx : x.toModel.unpack with
  | notANumber => simp [UnpackedFloat.lt, UnpackedFloat.compare, UnpackedFloat.isNaN]
  | infinity s =>
    rw [isNegativeSign_of_infinity hx]
    cases s <;> simp [UnpackedFloat.lt, UnpackedFloat.compare, UnpackedFloat.isNaN]
  | zero s | finite s mantissa exponent hpos =>
    rw [hx] at h
    cases h

end Parametric.Number
