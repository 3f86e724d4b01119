import Mathlib
import SweptHeap.Double.Basic

/-!
# Rounding

A finite double has a rational value. A ratio is rounded to the nearest double, but never past a
whole number of at most 53 bits, because such a number is a double itself: what is at least that
number is so after the rounding too.
-/

namespace SweptHeap.Double

/-- The value of a finite number without its sign. -/
def value (x : Double) : ℚ := x.significand * 2 ^ x.exponent

theorem cast_two_pow {e : ℤ} (he : 0 ≤ e) : ((Nat.pow 2 e.toNat : ℕ) : ℚ) = 2 ^ e := by
  obtain ⟨n, rfl⟩ := Int.eq_ofNat_of_zero_le he
  simp

theorem two_zpow_pos (e : ℤ) : (0 : ℚ) < 2 ^ e := zpow_pos two_pos e

/-! ### Whole parts -/

theorem ratio_snd_pos (x : Double) : 0 < x.ratio.2 := by
  unfold ratio
  split
  · exact Nat.one_pos
  · exact Nat.two_pow_pos _

theorem ratio_eq (x : Double) : (x.ratio.1 : ℚ) / x.ratio.2 = x.value := by
  unfold ratio value
  split_ifs with he
  · rw [Nat.cast_mul, cast_two_pow he, Nat.cast_one, div_one]
  · rw [cast_two_pow (by omega), zpow_neg, div_inv_eq_mul]

theorem le_toWord_iff {x : Double} (hfin : x.isFinite) (hpos : x.isNegative = false) {k : ℕ}
    (hk : k < wordLimit) : k ≤ x.toWord ↔ (k : ℚ) ≤ x.value := by
  have hnan : x.isNaN = false := by
    have hfield : x.field < 2047 := of_decide_eq_true hfin
    simp [isNaN, hfield.ne]
  have hden : (0 : ℚ) < x.ratio.2 := by exact_mod_cast x.ratio_snd_pos
  have hword : x.toWord = min (x.ratio.1 / x.ratio.2) (wordLimit - 1) := by
    simp [toWord, hnan, hpos, hfin]
  rw [hword, le_min_iff, Nat.le_div_iff_mul_le x.ratio_snd_pos, ← x.ratio_eq, le_div_iff₀ hden]
  constructor
  · exact fun h => by exact_mod_cast h.1
  · exact fun h => ⟨by exact_mod_cast h, by omega⟩

theorem toWord_infinity : (infinity false).toWord = wordLimit - 1 := by decide

/-! ### Bit patterns -/

theorem bits_withSign {m : ℕ} (hm : m < signBit) : (withSign false m).bits.toNat = m := by
  have hlt : m < UInt64.size := hm.trans (by decide)
  simp [withSign, Nat.toUInt64, UInt64.toNat_ofNat', Nat.mod_eq_of_lt hlt]

theorem magnitude_withSign {m : ℕ} (hm : m < signBit) : (withSign false m).magnitude = m := by
  rw [magnitude, bits_withSign hm, Nat.mod_eq_of_lt hm]

theorem isNegative_withSign {m : ℕ} (hm : m < signBit) : (withSign false m).isNegative = false := by
  rw [isNegative, bits_withSign hm]
  simpa using hm

theorem lt_signBit {m : ℕ} (hm : m < 2047 * hiddenBit) : m < signBit := hm.trans (by decide)

theorem isFinite_withSign {m : ℕ} (hm : m < 2047 * hiddenBit) :
    (withSign false m).isFinite = true := by
  rw [isFinite, field, magnitude_withSign (lt_signBit hm)]
  simpa using (Nat.div_lt_iff_lt_mul (by decide)).mpr hm

theorem value_of_field_zero {x : Double} (h : x.field = 0) :
    x.value = x.fraction * 2 ^ leastExponent := by
  simp [value, significand, exponent, h]

theorem value_of_field_succ {x : Double} {q : ℕ} (h : x.field = q + 1) :
    x.value = (hiddenBit + x.fraction : ℕ) * 2 ^ (leastExponent + q) := by
  simp [value, significand, exponent, h]

/-- A significand is packed below its power of two. One that needs the hidden bit moves into the
power by itself, and so does one that was rounded up to the next power. -/
theorem value_withSign {k s : ℕ} (hm : k * hiddenBit + s < 2047 * hiddenBit)
    (hs : s ≤ 2 * hiddenBit) (hnormal : k = 0 ∨ hiddenBit ≤ s) :
    (withSign false (k * hiddenBit + s)).value = s * 2 ^ (leastExponent + k) := by
  have hpos : 0 < hiddenBit := by decide
  have hmag := magnitude_withSign (lt_signBit hm)
  set x := withSign false (k * hiddenBit + s)
  have hparts : ∀ {q r : ℕ}, k * hiddenBit + s = r + hiddenBit * q → r < hiddenBit →
      x.field = q ∧ x.fraction = r := by
    intro q r heq hr
    rw [field, fraction, hmag, heq]
    exact ⟨by rw [Nat.add_mul_div_left _ _ hpos, Nat.div_eq_of_lt hr, zero_add],
      by rw [Nat.add_mul_mod_self_left, Nat.mod_eq_of_lt hr]⟩
  rcases Nat.lt_or_ge s hiddenBit with hlt | hge
  · have hk : k = 0 := hnormal.resolve_right (by omega)
    obtain ⟨hq, hr⟩ := hparts (q := 0) (r := s) (by rw [hk]; ring) hlt
    rw [value_of_field_zero hq, hr, hk, Nat.cast_zero, add_zero]
  · rcases hs.lt_or_eq with hlt | heq
    · obtain ⟨hq, hr⟩ :=
        hparts (q := k + 1) (r := s - hiddenBit) (by rw [mul_add, mul_comm]; omega) (by omega)
      rw [value_of_field_succ hq, hr, Nat.add_sub_cancel' hge]
    · obtain ⟨hq, hr⟩ := hparts (q := k + 1 + 1) (r := 0) (by rw [heq]; ring) hpos
      rw [value_of_field_succ hq, hr, heq, Nat.cast_add k 1, Nat.cast_one, ← add_assoc,
        zpow_add_one₀ two_ne_zero]
      push_cast
      ring

/-! ### The nearest number -/

theorem le_roundDiv {num den k : ℕ} (hden : 0 < den) (h : k * den ≤ num) :
    k ≤ roundDiv num den := by
  have hfloor : k ≤ num / den := (Nat.le_div_iff_mul_le hden).mpr h
  unfold roundDiv
  dsimp only
  split_ifs <;> omega

theorem roundDiv_le {num den k : ℕ} (hden : 0 < den) (h : num ≤ k * den) :
    roundDiv num den ≤ k := by
  have hfloor : num / den ≤ k := Nat.div_le_of_le_mul (by rwa [mul_comm])
  rcases hfloor.lt_or_eq with hlt | heq
  · unfold roundDiv
    dsimp only
    split_ifs <;> omega
  · have hrest : num % den = 0 := by
      have := Nat.div_add_mod num den
      rw [heq, mul_comm] at this
      omega
    unfold roundDiv
    simp [hrest, hden, heq]

theorem scale_snd_pos {num den : ℕ} (hden : 0 < den) (e : ℤ) : 0 < (scale num den e).2 := by
  unfold scale
  split
  · exact Nat.mul_pos hden (Nat.two_pow_pos _)
  · exact hden

theorem scale_eq (num den : ℕ) (e : ℤ) :
    ((scale num den e).1 : ℚ) / (scale num den e).2 = (num : ℚ) / den / 2 ^ e := by
  unfold scale
  split_ifs with he
  · rw [Nat.cast_mul, cast_two_pow he, div_div]
  · rw [Nat.cast_mul, cast_two_pow (by omega), zpow_neg]
    field_simp

theorem scale_div_lt_iff {num den k : ℕ} (hden : 0 < den) (e : ℤ) :
    (scale num den e).1 / (scale num den e).2 < k ↔ (num : ℚ) / den / 2 ^ e < k := by
  have hpos : (0 : ℚ) < (scale num den e).2 := by exact_mod_cast scale_snd_pos hden e
  rw [Nat.div_lt_iff_lt_mul (scale_snd_pos hden e), ← scale_eq, div_lt_iff₀ hpos]
  exact_mod_cast Iff.rfl

theorem le_scale_iff {num den k : ℕ} (hden : 0 < den) (e : ℤ) :
    k * (scale num den e).2 ≤ (scale num den e).1 ↔ (k : ℚ) * 2 ^ e ≤ (num : ℚ) / den := by
  have hpos : (0 : ℚ) < (scale num den e).2 := by exact_mod_cast scale_snd_pos hden e
  rw [← le_div_iff₀ (two_zpow_pos e), ← scale_eq, le_div_iff₀ hpos]
  exact_mod_cast Iff.rfl

theorem scale_le_iff {num den k : ℕ} (hden : 0 < den) (e : ℤ) :
    (scale num den e).1 ≤ k * (scale num den e).2 ↔ (num : ℚ) / den ≤ k * 2 ^ e := by
  have hpos : (0 : ℚ) < (scale num den e).2 := by exact_mod_cast scale_snd_pos hden e
  rw [← div_le_iff₀ (two_zpow_pos e), ← scale_eq, div_le_iff₀ hpos]
  exact_mod_cast Iff.rfl

/-- A ratio lies within a factor of two of the power that the lengths of its parts suggest. -/
theorem ratio_bounds {num den : ℕ} (hnum : 0 < num) (hden : 0 < den) :
    (2 : ℚ) ^ ((Nat.log2 num : ℤ) - Nat.log2 den - 1) < (num : ℚ) / den ∧
      (num : ℚ) / den < 2 ^ ((Nat.log2 num : ℤ) - Nat.log2 den + 1) := by
  have hd : (0 : ℚ) < den := by exact_mod_cast hden
  have hnum_le : (2 : ℚ) ^ (Nat.log2 num : ℤ) ≤ num := by
    exact_mod_cast Nat.log2_self_le hnum.ne'
  have hnum_lt : (num : ℚ) < 2 ^ ((Nat.log2 num : ℤ) + 1) := by
    exact_mod_cast Nat.lt_log2_self (n := num)
  have hden_le : (2 : ℚ) ^ (Nat.log2 den : ℤ) ≤ den := by
    exact_mod_cast Nat.log2_self_le hden.ne'
  have hden_lt : (den : ℚ) < 2 ^ ((Nat.log2 den : ℤ) + 1) := by
    exact_mod_cast Nat.lt_log2_self (n := den)
  constructor
  · rw [lt_div_iff₀ hd]
    calc (2 : ℚ) ^ ((Nat.log2 num : ℤ) - Nat.log2 den - 1) * den
        < 2 ^ ((Nat.log2 num : ℤ) - Nat.log2 den - 1) * 2 ^ ((Nat.log2 den : ℤ) + 1) :=
          mul_lt_mul_of_pos_left hden_lt (two_zpow_pos _)
      _ = 2 ^ (Nat.log2 num : ℤ) := by rw [← zpow_add₀ two_ne_zero]; congr 1; ring
      _ ≤ num := hnum_le
  · rw [div_lt_iff₀ hd]
    calc (num : ℚ) < 2 ^ ((Nat.log2 num : ℤ) + 1) := hnum_lt
      _ = 2 ^ ((Nat.log2 num : ℤ) - Nat.log2 den + 1) * 2 ^ (Nat.log2 den : ℤ) := by
          rw [← zpow_add₀ two_ne_zero]; congr 1; ring
      _ ≤ 2 ^ ((Nat.log2 num : ℤ) - Nat.log2 den + 1) * den :=
          mul_le_mul_of_nonneg_left hden_le (two_zpow_pos _).le

theorem leastExponent_le (num den : ℕ) : leastExponent ≤ exponentOf num den := le_max_right _ _

theorem cast_hiddenBit : (hiddenBit : ℚ) = 2 ^ (52 : ℤ) := by norm_num [hiddenBit]

/-- At its exponent a ratio has at most 53 bits, and exactly 53 unless that is the least
exponent. -/
theorem exponentOf_spec {num den : ℕ} (hnum : 0 < num) (hden : 0 < den) :
    (num : ℚ) / den < 2 * hiddenBit * 2 ^ exponentOf num den ∧
      (exponentOf num den = leastExponent ∨
        hiddenBit * 2 ^ exponentOf num den ≤ (num : ℚ) / den) := by
  obtain ⟨hlow, hhigh⟩ := ratio_bounds hnum hden
  set L : ℤ := (Nat.log2 num : ℤ) - Nat.log2 den with hL
  have hup : ∀ e : ℤ, (2 : ℚ) * hiddenBit * 2 ^ e = 2 ^ (e + 53) := by
    intro e
    rw [cast_hiddenBit, show e + 53 = 1 + 52 + e by ring, zpow_add₀ two_ne_zero,
      zpow_add₀ two_ne_zero, zpow_one]
  have hdown : ∀ e : ℤ, (hiddenBit : ℚ) * 2 ^ e = 2 ^ (e + 52) := by
    intro e
    rw [cast_hiddenBit, ← zpow_add₀ two_ne_zero, add_comm]
  -- The guess is right or one too small, and which of the two shows in the whole part.
  obtain ⟨exact, hexact, hlt, hle⟩ : ∃ exact : ℤ, exponentOf num den = max exact leastExponent ∧
      (num : ℚ) / den < 2 ^ (exact + 53) ∧ (2 : ℚ) ^ (exact + 52) ≤ (num : ℚ) / den := by
    by_cases hsmall : (scale num den (L - 53)).1 / (scale num den (L - 53)).2 < 2 * hiddenBit
    · refine ⟨L - 53, by simp only [exponentOf, ← hL, hsmall, if_true], ?_, ?_⟩
      · rw [scale_div_lt_iff hden, div_lt_iff₀ (two_zpow_pos _)] at hsmall
        push_cast at hsmall
        rwa [hup] at hsmall
      · rw [show L - 53 + 52 = L - 1 by ring]
        exact hlow.le
    · refine ⟨L - 53 + 1, by simp only [exponentOf, ← hL, hsmall, if_false], ?_, ?_⟩
      · rw [show L - 53 + 1 + 53 = L + 1 by ring]
        exact hhigh
      · rw [scale_div_lt_iff hden, not_lt, le_div_iff₀ (two_zpow_pos _)] at hsmall
        push_cast at hsmall
        rw [hup] at hsmall
        rwa [show L - 53 + 1 + 52 = L - 53 + 53 by ring]
  rw [hup, hdown, hexact]
  rcases le_total leastExponent exact with h | h
  · rw [max_eq_left h]
    exact ⟨hlt, .inr hle⟩
  · rw [max_eq_right h]
    exact ⟨hlt.trans_le (zpow_le_zpow_right₀ one_le_two (by omega)), .inl rfl⟩

/-- The significand that a ratio is rounded to. -/
def rounded (num den : ℕ) : ℕ :=
  roundDiv (scale num den (exponentOf num den)).1 (scale num den (exponentOf num den)).2

theorem rounded_le {num den : ℕ} (hnum : 0 < num) (hden : 0 < den) :
    rounded num den ≤ 2 * hiddenBit := by
  refine roundDiv_le (scale_snd_pos hden _) ((scale_le_iff hden _).mpr ?_)
  push_cast
  exact (exponentOf_spec hnum hden).1.le

theorem hiddenBit_le_rounded {num den : ℕ} (hnum : 0 < num) (hden : 0 < den) :
    exponentOf num den = leastExponent ∨ hiddenBit ≤ rounded num den :=
  (exponentOf_spec hnum hden).2.imp_right fun h =>
    le_roundDiv (scale_snd_pos hden _) ((le_scale_iff hden _).mpr h)

/-- How far the exponent of a ratio is above the least one. -/
def biased (num den : ℕ) : ℕ := (exponentOf num den - leastExponent).toNat

theorem ofRatio_infinite {num den : ℕ} (hnum : 0 < num)
    (h : 2047 * hiddenBit ≤ biased num den * hiddenBit + rounded num den) :
    ofRatio false num den = infinity false := by
  unfold ofRatio
  rw [if_neg hnum.ne']
  exact if_pos h

theorem ofRatio_finite {num den : ℕ} (hnum : 0 < num) (hden : 0 < den)
    (h : biased num den * hiddenBit + rounded num den < 2047 * hiddenBit) :
    (ofRatio false num den).isFinite = true ∧ (ofRatio false num den).isNegative = false ∧
      (ofRatio false num den).value = rounded num den * 2 ^ exponentOf num den := by
  have heq :
      ofRatio false num den = withSign false (biased num den * hiddenBit + rounded num den) := by
    unfold ofRatio
    rw [if_neg hnum.ne']
    exact if_neg (not_le.mpr h)
  have hexp : leastExponent + biased num den = exponentOf num den := by
    have := leastExponent_le num den
    unfold biased
    omega
  have hnormal : biased num den = 0 ∨ hiddenBit ≤ rounded num den :=
    (hiddenBit_le_rounded hnum hden).imp_left fun h => by simp [biased, h]
  rw [heq]
  refine ⟨isFinite_withSign h, isNegative_withSign (lt_signBit h), ?_⟩
  rw [value_withSign h (rounded_le hnum hden) hnormal, hexp]

theorem two_zpow_mul_two_pow {e : ℤ} (he : e ≤ 0) : (2 : ℚ) ^ e * (2 ^ (-e).toNat : ℕ) = 1 := by
  rw [Nat.cast_pow, Nat.cast_ofNat, ← zpow_natCast, Int.toNat_of_nonneg (Int.neg_nonneg.mpr he),
    ← zpow_add₀ two_ne_zero, add_neg_cancel, zpow_zero]

/-- Rounding does not go below a whole number of at most 53 bits. -/
theorem le_rounded_value {num den k : ℕ} (hnum : 0 < num) (hden : 0 < den) (hk : k ≤ 2 * hiddenBit)
    (h : k * den ≤ num) : (k : ℚ) ≤ rounded num den * 2 ^ exponentOf num den := by
  have hratio : (k : ℚ) ≤ (num : ℚ) / den := by
    rw [le_div_iff₀ (by exact_mod_cast hden)]
    exact_mod_cast h
  rcases le_or_gt (exponentOf num den) 0 with he | he
  · -- The number is a multiple of the power of two.
    have hpow := two_zpow_mul_two_pow he
    have hmul : k * 2 ^ (-exponentOf num den).toNat ≤ rounded num den := by
      refine le_roundDiv (scale_snd_pos hden _) ((le_scale_iff hden _).mpr ?_)
      rwa [Nat.cast_mul, mul_assoc, mul_comm _ ((2 : ℚ) ^ _), hpow, mul_one]
    calc (k : ℚ) = (k * 2 ^ (-exponentOf num den).toNat : ℕ) * 2 ^ exponentOf num den := by
          rw [Nat.cast_mul, mul_assoc, mul_comm _ ((2 : ℚ) ^ _), hpow, mul_one]
      _ ≤ _ := mul_le_mul_of_nonneg_right (by exact_mod_cast hmul) (two_zpow_pos _).le
  · -- The significand has 53 bits, and the number has no more.
    have hnormal : hiddenBit ≤ rounded num den :=
      (hiddenBit_le_rounded hnum hden).resolve_left (by rw [leastExponent]; omega)
    have htwo : (2 : ℚ) ≤ 2 ^ exponentOf num den := by
      simpa using zpow_le_zpow_right₀ (one_le_two (α := ℚ))
        (show (1 : ℤ) ≤ exponentOf num den by omega)
    calc (k : ℚ) ≤ hiddenBit * 2 := by rw [mul_comm]; exact_mod_cast hk
      _ ≤ _ := mul_le_mul (by exact_mod_cast hnormal) htwo zero_le_two (Nat.cast_nonneg _)

/-- Rounding to a fraction does not go above a whole number either. -/
theorem rounded_value_le {num den k : ℕ} (hden : 0 < den) (he : exponentOf num den ≤ 0)
    (h : num ≤ k * den) : (rounded num den : ℚ) * 2 ^ exponentOf num den ≤ k := by
  have hratio : (num : ℚ) / den ≤ k := by
    rw [div_le_iff₀ (by exact_mod_cast hden)]
    exact_mod_cast h
  have hpow := two_zpow_mul_two_pow he
  have hmul : rounded num den ≤ k * 2 ^ (-exponentOf num den).toNat := by
    refine roundDiv_le (scale_snd_pos hden _) ((scale_le_iff hden _).mpr ?_)
    rwa [Nat.cast_mul, mul_assoc, mul_comm _ ((2 : ℚ) ^ _), hpow, mul_one]
  calc (rounded num den : ℚ) * 2 ^ exponentOf num den
      ≤ (k * 2 ^ (-exponentOf num den).toNat : ℕ) * 2 ^ exponentOf num den :=
        mul_le_mul_of_nonneg_right (by exact_mod_cast hmul) (two_zpow_pos _).le
    _ = k := by rw [Nat.cast_mul, mul_assoc, mul_comm _ ((2 : ℚ) ^ _), hpow, mul_one]

/-- The whole part of a rounded ratio reaches every whole number of at most 53 bits that the ratio
reaches. -/
theorem le_toWord_ofRatio {num den k : ℕ} (hden : 0 < den) (hk : k ≤ 2 * hiddenBit)
    (h : k * den ≤ num) : k ≤ (ofRatio false num den).toWord := by
  rcases Nat.eq_zero_or_pos num with rfl | hnum
  · obtain rfl : k = 0 := by simpa [hden.ne'] using h
    exact Nat.zero_le _
  have hlt : k < wordLimit := hk.trans_lt (by decide)
  rcases Nat.lt_or_ge (biased num den * hiddenBit + rounded num den) (2047 * hiddenBit) with
    hfits | hbig
  · obtain ⟨hfin, hpos, hvalue⟩ := ofRatio_finite hnum hden hfits
    rw [le_toWord_iff hfin hpos hlt, hvalue]
    exact le_rounded_value hnum hden hk h
  · rw [ofRatio_infinite hnum hbig, toWord_infinity]
    omega

/-! ### Products -/

/-- A whole number below 2^53 is a double. -/
theorem ofNat_spec {n : ℕ} (hn : n < 2 * hiddenBit) :
    (ofNat n).isFinite = true ∧ (ofNat n).isNegative = false ∧ (ofNat n).value = n := by
  rcases Nat.eq_zero_or_pos n with rfl | hpos
  · refine ⟨by decide, by decide, ?_⟩
    rw [value, show (ofNat 0).significand = 0 by decide, Nat.cast_zero, zero_mul]
  have he : exponentOf n 1 ≤ 0 := by
    rcases (exponentOf_spec hpos Nat.one_pos).2 with heq | hle
    · rw [heq]
      decide
    · by_contra hcon
      have htwo : (2 : ℚ) ≤ 2 ^ exponentOf n 1 := by
        simpa using zpow_le_zpow_right₀ (one_le_two (α := ℚ))
          (show (1 : ℤ) ≤ exponentOf n 1 by omega)
      have hlt : (n : ℚ) < hiddenBit * 2 := by rw [mul_comm]; exact_mod_cast hn
      rw [Nat.cast_one, div_one] at hle
      exact absurd ((mul_le_mul_of_nonneg_left htwo (Nat.cast_nonneg _)).trans hle) hlt.not_ge
  have hfits : biased n 1 * hiddenBit + rounded n 1 < 2047 * hiddenBit := by
    have hbiased : biased n 1 ≤ 1074 := by
      unfold biased leastExponent
      omega
    have hmul := Nat.mul_le_mul_right hiddenBit hbiased
    have hle := rounded_le hpos Nat.one_pos
    have hhidden : 0 < hiddenBit := by decide
    omega
  obtain ⟨hfin, hsign, hvalue⟩ := ofRatio_finite hpos Nat.one_pos hfits
  refine ⟨hfin, hsign, hvalue.trans (le_antisymm ?_ ?_)⟩
  · exact rounded_value_le Nat.one_pos he (mul_one n).ge
  · exact le_rounded_value hpos Nat.one_pos hn.le (mul_one n).le

theorem mul_eq_ofRatio {x y : Double} (hx : x.isFinite = true) (hy : y.isFinite = true)
    (hxs : x.isNegative = false) (hys : y.isNegative = false) :
    x.mul y = ofRatio false (x.ratio.1 * y.ratio.1) (x.ratio.2 * y.ratio.2) := by
  have hnan : ∀ {z : Double}, z.isFinite = true → z.isNaN = false := fun h => by
    simp [isNaN, (of_decide_eq_true h).ne]
  simp [mul, hnan hx, hnan hy, hx, hy, hxs, hys]

/-- The whole part of a product reaches every whole number of at most 53 bits that the exact product
reaches. -/
theorem le_toWord_mul {x y : Double} (hx : x.isFinite = true) (hy : y.isFinite = true)
    (hxs : x.isNegative = false) (hys : y.isNegative = false) {k : ℕ} (hk : k ≤ 2 * hiddenBit)
    (h : (k : ℚ) ≤ x.value * y.value) : k ≤ (x.mul y).toWord := by
  rw [mul_eq_ofRatio hx hy hxs hys]
  have hden : 0 < x.ratio.2 * y.ratio.2 := Nat.mul_pos x.ratio_snd_pos y.ratio_snd_pos
  refine le_toWord_ofRatio hden hk ?_
  have hden' : (0 : ℚ) < (x.ratio.2 * y.ratio.2 : ℕ) := by exact_mod_cast hden
  rw [← x.ratio_eq, ← y.ratio_eq, div_mul_div_comm, ← Nat.cast_mul, ← Nat.cast_mul,
    le_div_iff₀ hden'] at h
  exact_mod_cast h

/-- A finite number that is not below one. -/
theorem one_le_value {x : Double} (hfin : x.isFinite = true) (hone : x.lt one = false) :
    x.isNegative = false ∧ 1 ≤ x.value := by
  have hnan : x.isNaN = false := by simp [isNaN, (of_decide_eq_true hfin).ne]
  have hkey : one.orderKey ≤ x.orderKey := by
    simpa [lt, hnan, show one.isNaN = false by decide] using hone
  have hkeyOne : one.orderKey = 1023 * hiddenBit := by decide
  rw [hkeyOne] at hkey
  have hsign : x.isNegative = false := by
    by_contra hneg
    rw [orderKey, if_pos (by simpa using hneg)] at hkey
    have hhidden : 0 < hiddenBit := by decide
    omega
  have hmag : 1023 * hiddenBit ≤ x.magnitude := by
    rw [orderKey, if_neg (by simp [hsign])] at hkey
    exact_mod_cast hkey
  have hfield : 1023 ≤ x.field := (Nat.le_div_iff_mul_le (by decide)).mpr hmag
  obtain ⟨q, hq⟩ : ∃ q, x.field = q + 1 := ⟨x.field - 1, by omega⟩
  refine ⟨hsign, ?_⟩
  rw [value_of_field_succ hq]
  calc (1 : ℚ) = hiddenBit * 2 ^ (-52 : ℤ) := by norm_num [hiddenBit]
    _ ≤ (hiddenBit + x.fraction : ℕ) * 2 ^ (leastExponent + q) := by
      refine mul_le_mul (by exact_mod_cast Nat.le_add_right _ _) ?_ (two_zpow_pos _).le
        (Nat.cast_nonneg _)
      exact zpow_le_zpow_right₀ one_le_two (by rw [leastExponent]; omega)

end SweptHeap.Double
