import Parametric.Formula.Numeral
import Parametric.Number.Reading
import Parametric.Proofs.Number.Shortest

/-!
# Text of numbers

The text of a finite number reads back as the number, up to the sign, which is not part of a
literal.
-/

namespace Parametric.Number

variable {x : Float} {d : Dyadic} {digits : List Char} {e : Int}

/-! ## Values of digits -/

theorem digitsValue_eq (digits : List Char) : digitsValue digits = Nat.ofDigitChars 10 digits 0 := rfl

theorem digitsValue_cons (c : Char) (digits : List Char) :
    digitsValue (c :: digits) = 10 ^ digits.length * (c.toNat - '0'.toNat) + digitsValue digits := by
  rw [digitsValue_eq, Nat.ofDigitChars_cons, Nat.ofDigitChars_eq_ofDigitChars_zero, Nat.mul_zero, Nat.zero_add]
  rfl

theorem digitsValue_dropWhile (digits : List Char) :
    digitsValue (digits.dropWhile (· == '0')) = digitsValue digits := by
  induction digits with
  | nil => rfl
  | cons c rest ih =>
    by_cases hc : c = '0'
    · rw [List.dropWhile_cons_of_pos (by simpa using hc), ih, digitsValue_cons, hc]
      simp
    · rw [List.dropWhile_cons_of_neg (by simpa using hc)]

theorem isDigit_bounds {c : Char} (h : c.isDigit) : 48 ≤ c.toNat ∧ c.toNat ≤ 57 := by
  simp only [Char.isDigit, Bool.and_eq_true, decide_eq_true_eq, UInt32.le_iff_toNat_le] at h
  exact h

theorem digitsValue_lt (h : ∀ c ∈ digits, c.isDigit) : digitsValue digits < 10 ^ digits.length := by
  induction digits with
  | nil => decide
  | cons c rest ih =>
    have hc := isDigit_bounds (h c (by simp))
    have hrest := ih fun d hd => h d (by simp [hd])
    rw [digitsValue_cons, List.length_cons, pow_succ]
    have : 10 ^ rest.length * (c.toNat - '0'.toNat) ≤ 10 ^ rest.length * 9 :=
      Nat.mul_le_mul_left _ (by rw [show '0'.toNat = 48 from rfl]; omega)
    omega

theorem ten_pow_le_digitsValue {c : Char} {rest : List Char} (hc : c.isDigit) (hzero : c ≠ '0') :
    10 ^ rest.length ≤ digitsValue (c :: rest) := by
  have hbounds := isDigit_bounds hc
  have hne : c.toNat ≠ 48 := fun h => hzero (Char.toNat_inj.mp h)
  rw [digitsValue_cons]
  have : 10 ^ rest.length * 1 ≤ 10 ^ rest.length * (c.toNat - '0'.toNat) :=
    Nat.mul_le_mul_left _ (by rw [show '0'.toNat = 48 from rfl]; omega)
  omega

theorem ten_zpow_lt {a b : Int} : (10 : ℚ) ^ a < 10 ^ b ↔ a < b := zpow_lt_zpow_iff_right₀ (by norm_num)

theorem two_zpow_le_ten_zpow : (2 : ℚ) ^ (1200 : Int) ≤ 10 ^ (400 : Int) := by
  rw [show (1200 : Int) = 3 * 400 from rfl, zpow_mul]
  exact zpow_le_zpow_left₀ (by norm_num) (by norm_num) (by norm_num)

theorem ofFloat?_nearest (hdigits : ∀ c ∈ digits, c.isDigit) (h : d.Nearest (digitsValue digits * 10 ^ e))
    (hd : d.Canonical) (hm : 0 < d.mantissa) (hs : d.negative = false) :
    Dyadic.ofFloat? (nearest digits e) = some d := by
  have hpos := h.pos hm
  have htop := h.lt_top hd
  have hbottom := h.bottom_le hd hm
  unfold nearest
  simp only
  rw [← digitsValue_dropWhile digits] at *
  have hdigits' : ∀ c ∈ digits.dropWhile (· == '0'), c.isDigit := fun c hc =>
    hdigits c ((List.dropWhile_sublist _).mem hc)
  cases hl : digits.dropWhile (· == '0') with
  | nil =>
    rw [hl] at hpos
    simp [digitsValue] at hpos
  | cons c rest =>
    have hzero : c ≠ '0' := by
      have := List.head?_dropWhile_not (· == '0') digits
      simpa [hl] using this
    rw [hl] at h htop hbottom hdigits'
    have hten := ten_zpow_pos e
    have hlength : (10 : ℚ) ^ (e + rest.length) ≤ digitsValue (c :: rest) * 10 ^ e := by
      rw [zpow_add₀ (by norm_num), mul_comm, zpow_natCast]
      refine mul_le_mul_of_nonneg_right ?_ hten.le
      exact_mod_cast ten_pow_le_digitsValue (hdigits' c (by simp)) hzero
    have hlength' : digitsValue (c :: rest) * (10 : ℚ) ^ e < 10 ^ (e + (c :: rest).length) := by
      rw [zpow_add₀ (by norm_num), mul_comm, zpow_natCast]
      refine mul_lt_mul_of_pos_left ?_ hten
      exact_mod_cast digitsValue_lt hdigits'
    -- a number in range has a leading digit between the two cut-offs, so that neither is taken
    have hhigh : e + (rest.length : Int) < 400 := ten_zpow_lt.mp <|
      calc (10 : ℚ) ^ (e + rest.length) < 2 ^ (1024 : Int) := hlength.trans_lt htop
        _ ≤ 2 ^ (1200 : Int) := zpow_le_zpow_right₀ (by norm_num) (by norm_num)
        _ ≤ 10 ^ (400 : Int) := two_zpow_le_ten_zpow
    have hlow : -400 < e + ((c :: rest).length : Int) := ten_zpow_lt.mp <|
      calc (10 : ℚ) ^ (-400 : Int) = (10 ^ (400 : Int))⁻¹ := zpow_neg _ _
        _ ≤ (2 ^ (1200 : Int))⁻¹ := inv_anti₀ (two_zpow_pos _) two_zpow_le_ten_zpow
        _ = 2 ^ (-1200 : Int) := (zpow_neg _ _).symm
        _ ≤ 2 ^ (-1075 : Int) := zpow_le_zpow_right₀ (by norm_num) (by norm_num)
        _ < 10 ^ (e + (c :: rest).length) := hbottom.trans_lt hlength'
    rw [List.length_cons] at *
    push_cast at hlow
    rw [if_neg (by simp; omega), if_neg (by push_cast; omega)]
    exact h.ofFloat?_ofScientific hd hm hs

/-! ## Positional text -/

theorem isDigit_toDigits {n : Nat} {c : Char} (h : c ∈ Nat.toDigits 10 n) : c.isDigit :=
  Nat.isDigit_of_mem_toDigits (by norm_num) le_rfl h

theorem takeWhile_of_all {α : Type} {p : α → Bool} {l : List α} (h : ∀ a ∈ l, p a) (rest : List α)
    (hrest : rest.head?.all (!p ·)) : (l ++ rest).takeWhile p = l ∧ (l ++ rest).dropWhile p = rest := by
  rw [List.takeWhile_append_of_pos h, List.dropWhile_append_of_pos h]
  cases rest with
  | nil => simp
  | cons a rest =>
    have ha : ¬p a := by simpa using hrest
    simp [List.takeWhile_cons_of_neg ha, List.dropWhile_cons_of_neg ha]

theorem positional_cases (c : Decimal) :
    (∃ digits, c.positional = digits ∧ digits ≠ [] ∧ (∀ a ∈ digits, a.isDigit) ∧
      (digitsValue digits : ℚ) = c.value) ∨
    ∃ whole fraction, c.positional = whole ++ '.' :: fraction ∧ whole ≠ [] ∧
      (∀ a ∈ whole ++ fraction, a.isDigit) ∧
      (digitsValue (whole ++ fraction) : ℚ) * 10 ^ (-(fraction.length : Int)) = c.value := by
  have hdigits : ∀ a ∈ Nat.toDigits 10 c.digits, a.isDigit := fun a ha => isDigit_toDigits ha
  have hzeros : ∀ n, ∀ a ∈ zeros n, a.isDigit := fun n a ha => by
    rw [List.eq_of_mem_replicate ha]
    rfl
  unfold Decimal.positional
  simp only
  split
  case isTrue he =>
    refine .inl ⟨_, rfl, by simp, fun a ha => ?_, ?_⟩
    · exact (List.mem_append.mp ha).elim (hdigits a) (hzeros _ a)
    · rw [digitsValue_eq, Nat.ofDigitChars_append, Nat.ofDigitChars_ten_toDigits, zeros,
        Nat.ofDigitChars_replicate_zero, Decimal.value]
      rw [zpow_toNat 10 he]
      push_cast
      ring
  case isFalse he =>
    right
    generalize hp : zeros (c.exponent.natAbs + 1 - (Nat.toDigits 10 c.digits).length) ++
      Nat.toDigits 10 c.digits = padded
    have hlength : c.exponent.natAbs < padded.length := by
      rw [← hp, List.length_append, zeros, List.length_replicate]
      have := Nat.length_toDigits_pos (b := 10) (n := c.digits)
      omega
    refine ⟨padded.take (padded.length - c.exponent.natAbs), padded.drop (padded.length - c.exponent.natAbs),
      rfl, ?_, ?_, ?_⟩
    · rw [← List.length_pos_iff, List.length_take]
      omega
    · rw [List.take_append_drop, ← hp]
      exact fun a ha => (List.mem_append.mp ha).elim (hzeros _ a) (hdigits a)
    · have hvalue : digitsValue padded = c.digits := by
        rw [← hp, digitsValue_eq, Nat.ofDigitChars_append, zeros, Nat.ofDigitChars_replicate_zero, Nat.mul_zero,
          Nat.ofDigitChars_ten_toDigits]
      rw [List.take_append_drop, List.length_drop, hvalue, Decimal.value]
      congr 2
      omega

theorem isMark_of_isDigit {c : Char} (h : c.isDigit ∨ c = '.') : (!(c == 'e' || c == 'E')) = true := by
  rcases h with h | rfl
  · have hbounds := isDigit_bounds h
    have he : c ≠ 'e' := by
      rintro rfl
      exact absurd hbounds.2 (by decide)
    have hE : c ≠ 'E' := by
      rintro rfl
      exact absurd hbounds.2 (by decide)
    simp [he, hE]
  · decide

/-- A decimal near an exact value is written with a text that reads as the number with that value. -/
theorem read?_positional {c : Decimal} (h : d.Nearest c.value) (hd : d.Canonical) (hm : 0 < d.mantissa)
    (hs : d.negative = false) : ∃ y, read? c.positional = some y ∧ Dyadic.ofFloat? y = some d := by
  rcases positional_cases c with
    ⟨digits, htext, hne, hdigits, hvalue⟩ | ⟨whole, fraction, htext, hne, hdigits, hvalue⟩
  · have hmark := takeWhile_of_all (fun a ha => isMark_of_isDigit (.inl (hdigits a ha))) [] rfl
    have hdigit := takeWhile_of_all hdigits [] rfl
    rw [List.append_nil] at hmark hdigit
    refine ⟨nearest digits 0, ?_, ofFloat?_nearest hdigits (by simpa [hvalue] using h) hd hm hs⟩
    simp only [htext, read?, hmark.1, hmark.2, mantissa?, hdigit.1, hdigit.2]
    simp [hne]
  · have hall : ∀ a ∈ whole ++ '.' :: fraction, a.isDigit ∨ a = '.' := by
      intro a ha
      rcases List.mem_append.mp ha with ha | ha
      · exact .inl (hdigits a (by simp [ha]))
      · rcases List.mem_cons.mp ha with rfl | ha
        · exact .inr rfl
        · exact .inl (hdigits a (by simp [ha]))
    have hmark := takeWhile_of_all (fun a ha => isMark_of_isDigit (hall a ha)) [] rfl
    have hdigit := takeWhile_of_all (fun a ha => hdigits a (List.mem_append_left _ ha)) ('.' :: fraction) rfl
    rw [List.append_nil] at hmark
    have hfraction : fraction.all Char.isDigit := List.all_eq_true.mpr fun a ha => hdigits a (by simp [ha])
    refine ⟨nearest (whole ++ fraction) (-fraction.length), ?_, ofFloat?_nearest hdigits (by rwa [hvalue]) hd hm hs⟩
    simp only [htext, read?, hmark.1, hmark.2, mantissa?, hdigit.1, hdigit.2, hfraction]
    simp [hne]

end Parametric.Number

namespace Parametric.Formula

open Number

variable {x : Float} {d : Number.Dyadic}

/-! ## Text of literals -/

theorem value_truncate (h : d.isIntegral) : (d.truncate.natAbs : ℚ) = d.value := by
  obtain ⟨negative, m, e⟩ := d
  simp only [Number.Dyadic.isIntegral, Bool.or_eq_true, decide_eq_true_eq, beq_iff_eq, twoTo_eq] at h
  have habs : ∀ n : Nat, (if negative = true then -(n : Int) else n).natAbs = n := fun n => by
    split <;> simp
  simp only [Number.Dyadic.truncate, twoTo_eq, habs, Number.Dyadic.value]
  split
  case isTrue he =>
    rw [zpow_toNat 2 he]
    push_cast
    rfl
  case isFalse he =>
    rw [Nat.cast_div (Nat.dvd_of_mod_eq_zero (h.resolve_left he)) (by positivity),
      show (2 : ℚ) ^ e = (2 ^ e.natAbs)⁻¹ by rw [← zpow_natCast, ← zpow_neg]; congr 1; omega, div_eq_mul_inv]
    push_cast
    rfl

theorem truncate_eq (d : Number.Dyadic) :
    d.truncate = if d.negative then -(d.truncate.natAbs : Int) else d.truncate.natAbs := by
  simp only [Number.Dyadic.truncate]
  generalize (if d.exponent ≥ 0 then d.mantissa * twoTo d.exponent.toNat
    else d.mantissa / twoTo d.exponent.natAbs) = n
  cases d.negative <;> simp

theorem toString_int (negative : Bool) {n : Nat} (hn : 0 < n) :
    toString (if negative then -(n : Int) else n) = signed negative (Nat.toDigits 10 n) := by
  cases negative with
  | false => rfl
  | true =>
    obtain ⟨k, rfl⟩ : ∃ k, n = k + 1 := ⟨n - 1, by omega⟩
    rw [if_pos rfl, Int.neg_ofNat_succ]
    show "-" ++ Nat.repr (k + 1) = _
    rw [Nat.repr_eq_ofList_toDigits]
    exact String.toList_inj.mp (by simp [signed])

/-- A number other than zero is written as its sign and a decimal that is rounded to it. -/
theorem numberText_eq (h : Number.Dyadic.ofFloat? x = some d) (hm : 0 < d.mantissa) :
    ∃ c : Decimal, d.Nearest c.value ∧ numberText x = signed d.negative c.positional := by
  unfold numberText
  split
  case isTrue hint =>
    have hintegral : d.isIntegral := by
      simp only [isIntegral, h, Option.any_some, Bool.and_eq_true] at hint
      exact hint.1
    have hvalue := value_truncate hintegral
    refine ⟨⟨d.truncate.natAbs, 0⟩, ?_, ?_⟩
    · rw [Decimal.value, zpow_zero, mul_one, hvalue]
      exact d.nearest_value
    · have hpos : 0 < d.truncate.natAbs := by
        have := d.nearest_value.pos hm
        rw [← hvalue] at this
        exact_mod_cast this
      rw [truncated, h, Option.map_some, Option.getD_some, truncate_eq d, toString_int d.negative hpos,
        ← truncate_eq d]
      simp [Decimal.positional, zeros]
  case isFalse =>
    refine ⟨d.shortest, nearest_shortest (canonical_of_ofFloat? h) hm, ?_⟩
    rw [plain, h]

theorem ofFloat?_abs_zero (h : Number.Dyadic.ofFloat? x = some d) (hm : d.mantissa = 0) : x.abs = 0.0 := by
  have hd := canonical_of_ofFloat? h
  have he : d.exponent = -1074 := hd.full.resolve_left (by omega)
  refine ofFloat?_inj (ofFloat?_abs h) ?_
  rw [ofFloat?_zero, Number.Dyadic.abs, hm, he]

theorem numberText_zero (h : Number.Dyadic.ofFloat? x = some d) (hm : d.mantissa = 0) : numberText x = "0" := by
  have hintegral : d.isIntegral := by
    simp [Number.Dyadic.isIntegral, hm]
  have htruncate : d.truncate = 0 := by
    simp [Number.Dyadic.truncate, hm]
  have hsmall : (0.0 : Float) < 1e15 := by decide +kernel
  rw [numberText, isIntegral, h, ofFloat?_abs_zero h hm, Option.any_some, hintegral,
    if_pos (by simpa using hsmall), truncated, h, Option.map_some, Option.getD_some, htruncate]
  rfl

theorem positional_chars (c : Decimal) : c.positional ≠ [] ∧ ∀ a ∈ c.positional, a.isDigit ∨ a = '.' := by
  rcases positional_cases c with ⟨digits, htext, hne, hdigits, -⟩ | ⟨whole, fraction, htext, hne, hdigits, -⟩
  · rw [htext]
    exact ⟨hne, fun a ha => .inl (hdigits a ha)⟩
  · rw [htext]
    refine ⟨by simp, fun a ha => ?_⟩
    rcases List.mem_append.mp ha with ha | ha
    · exact .inl (hdigits a (List.mem_append_left _ ha))
    · exact (List.mem_cons.mp ha).symm.imp_left fun ha => hdigits a (List.mem_append_right _ ha)

/-- The text of a finite number is a minus sign if it is negative, and digits that read back as
its absolute value. -/
theorem numberText_reads (hx : x.isFinite) :
    ∃ digits, (numberText x).toList = (if x < 0.0 then '-' :: digits else digits) ∧ digits ≠ [] ∧
      (∀ a ∈ digits, a.isDigit ∨ a = '.') ∧ read? digits = some x.abs := by
  obtain ⟨d, h⟩ := exists_ofFloat? hx
  have hd := canonical_of_ofFloat? h
  by_cases hm : d.mantissa = 0
  · refine ⟨['0'], ?_, by simp, by simp, ?_⟩
    · rw [numberText_zero h hm, if_neg (fun hlt => ((lt_zero_iff h).mp hlt).2 hm)]
      rfl
    · rw [ofFloat?_abs_zero h hm]
      rfl
  · obtain ⟨c, hnear, htext⟩ := numberText_eq h (by omega)
    have habs : d.abs.Canonical := canonical_of_ofFloat? (ofFloat?_abs h)
    have hnear' : d.abs.Nearest c.value := ⟨hnear.low, hnear.high, hnear.tie⟩
    obtain ⟨y, hread, hy⟩ := read?_positional hnear' habs (Nat.pos_of_ne_zero hm) rfl
    refine ⟨c.positional, ?_, (positional_chars c).1, (positional_chars c).2, ?_⟩
    · rw [htext, signed, String.toList_ofList]
      cases hs : d.negative with
      | true =>
        rw [if_pos ((lt_zero_iff h).mpr ⟨hs, hm⟩)]
        rfl
      | false =>
        rw [if_neg fun hlt => Bool.false_ne_true (hs.symm.trans ((lt_zero_iff h).mp hlt).1)]
        rfl
    · rw [hread, ofFloat?_inj hy (ofFloat?_abs h)]

theorem truncate_abs (d : Number.Dyadic) : d.abs.truncate = d.truncate.natAbs := by
  have hmagnitude : ∀ n : Nat, n = (if d.negative then -(n : Int) else n).natAbs := fun n => by
    cases d.negative <;> simp
  exact congrArg Nat.cast (hmagnitude _)

/-- The text of a finite number is that of its absolute value, behind a minus sign if it is negative. -/
theorem numberText_abs (hx : x.isFinite) :
    numberText x = (if x < 0.0 then "-" else "") ++ numberText x.abs := by
  obtain ⟨d, h⟩ := exists_ofFloat? hx
  have habs := ofFloat?_abs h
  by_cases hm : d.mantissa = 0
  · rw [numberText_zero h hm, numberText_zero habs hm, if_neg (fun hlt => ((lt_zero_iff h).mp hlt).2 hm)]
    rfl
  · have hsign : (if x < 0.0 then "-" else "") = if d.negative then "-" else "" := by
      simp only [lt_zero_iff h, and_iff_left hm]
    have hsigned : ∀ digits, signed d.negative digits = (if d.negative then "-" else "") ++ .ofList digits := by
      intro digits
      cases d.negative <;> exact String.toList_inj.mp (by simp [signed])
    have htwice : x.abs.abs = x.abs := ofFloat?_inj (ofFloat?_abs habs) habs
    have hintegral : isIntegral x.abs = isIntegral x := by
      rw [isIntegral, isIntegral, h, habs]
      rfl
    rw [hsign, numberText, numberText, htwice, hintegral]
    split
    case isTrue hint =>
      have hpos : 0 < d.truncate.natAbs := by
        simp only [isIntegral, h, Option.any_some, Bool.and_eq_true] at hint
        have := d.nearest_value.pos (Nat.pos_of_ne_zero hm)
        rw [← value_truncate hint.1] at this
        exact_mod_cast this
      rw [truncated, truncated, h, habs, Option.map_some, Option.map_some, Option.getD_some, Option.getD_some,
        truncate_eq d, toString_int d.negative hpos, hsigned, truncate_abs]
      exact congrArg _ (toString_int false hpos).symm
    case isFalse =>
      rw [plain, plain, h, habs]
      exact hsigned _

/-- What is not finite is written as a name, behind a minus sign if it is negative. -/
theorem numberText_of_not_finite {x : Float} (h : x.isFinite = false) :
    numberText x = if x.isNaN then "NaN" else if x < 0.0 then "-inf" else "inf" := by
  have hnone := ofFloat?_eq_none h
  have hlt := lt_zero_iff_of_not_finite h
  rw [numberText, isIntegral, hnone]
  simp only [Option.any_none, Bool.false_and, Bool.false_eq_true, if_false, plain, hnone, nonFinite]
  cases hnan : x.isNaN with
  | true => rfl
  | false =>
    cases hs : isNegativeSign x with
    | true => simp [hlt.mpr ⟨hnan, hs⟩]
    | false =>
      have hpos : ¬x < 0.0 := fun h => by simp [hlt.mp h] at hs
      simp [hpos]

end Parametric.Formula
