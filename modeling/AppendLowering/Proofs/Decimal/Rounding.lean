import AppendLowering.Decimal.Double
import Mathlib.Algebra.Order.Field.Power
import Mathlib.Algebra.Order.Field.Rat
import Mathlib.Tactic.FieldSimp
import Mathlib.Tactic.Linarith
import Mathlib.Tactic.Positivity
import Mathlib.Tactic.Ring

/-!
# Rounding to doubles

The fractions that round to a double form an interval around its value. Rounding a
fraction of this interval, in whatever terms it is given, gives the double.
-/

namespace AppendLowering.Double

variable {num den m : Nat} {d : Double}

/-- An integer power as a quotient of two natural ones. -/
theorem zpow_eq_div_toNat (base : ℚ) (k : ℤ) :
    base ^ k = base ^ k.toNat / base ^ (-k).toNat := by
  obtain ⟨n, rfl | rfl⟩ := k.eq_nat_or_neg <;> simp

/-- The integer is nearest to the fraction, and even if another one is as near. -/
structure NearestEven (y : ℚ) (m : Nat) : Prop where
  low : (m : ℚ) - 1 / 2 ≤ y
  high : y ≤ m + 1 / 2
  odd : m % 2 = 1 → (m : ℚ) - 1 / 2 < y ∧ y < m + 1 / 2

theorem roundDiv_eq (hden : 0 < den) (h : NearestEven ((num : ℚ) / den) m) :
    roundDiv num den = m := by
  obtain ⟨hlow, hhigh, hodd⟩ := h
  have hpos : (0 : ℚ) < den := by exact_mod_cast hden
  have hlow' : 2 * (m * den) ≤ 2 * num + den := by
    rw [le_div_iff₀ hpos] at hlow
    exact_mod_cast (by linarith : 2 * ((m : ℚ) * den) ≤ 2 * num + den)
  have hhigh' : 2 * num ≤ 2 * (m * den) + den := by
    rw [div_le_iff₀ hpos] at hhigh
    exact_mod_cast (by linarith : 2 * (num : ℚ) ≤ 2 * (m * den) + den)
  have hodd' : m % 2 = 1 → 2 * (m * den) < 2 * num + den ∧ 2 * num < 2 * (m * den) + den := by
    intro h
    obtain ⟨h₁, h₂⟩ := hodd h
    rw [lt_div_iff₀ hpos] at h₁
    rw [div_lt_iff₀ hpos] at h₂
    exact ⟨by exact_mod_cast (by linarith : 2 * ((m : ℚ) * den) < 2 * num + den),
      by exact_mod_cast (by linarith : 2 * (num : ℚ) < 2 * (m * den) + den)⟩
  have hdivision : num / den * den + num % den = num := Nat.div_add_mod' num den
  have hrest := Nat.mod_lt num hden
  unfold roundDiv
  generalize num / den = q at *
  generalize num % den = r at *
  -- The quotient is `m` or one less.
  have hle : m ≤ q + 1 := by
    by_contra hlt
    have := Nat.mul_le_mul_right den (show q + 2 ≤ m by omega)
    rw [Nat.add_mul] at this
    omega
  have hge : q ≤ m := by
    by_contra hlt
    have := Nat.mul_le_mul_right den (show m + 1 ≤ q by omega)
    rw [Nat.add_mul] at this
    omega
  obtain rfl | rfl : m = q ∨ m = q + 1 := by omega
  · exact if_neg (by omega)
  · rw [Nat.add_mul] at hlow' hhigh' hodd'
    exact if_pos (by omega)

theorem roundDiv_le (hden : 0 < den) (h : (num : ℚ) / den < m) : roundDiv num den ≤ m := by
  have hlt : num < den * m := by
    rw [div_lt_iff₀ (by exact_mod_cast hden)] at h
    exact_mod_cast h.trans_eq (mul_comm _ _)
  have := Nat.div_lt_of_lt_mul hlt
  dsimp only [roundDiv]
  split <;> omega

theorem log2Ratio_bounds (hnum : 0 < num) (hden : 0 < den) :
    (2 : ℚ) ^ log2Ratio num den ≤ num / den ∧ (num : ℚ) / den < 2 ^ (log2Ratio num den + 1) := by
  have hpos : (0 : ℚ) < den := by exact_mod_cast hden
  have htwo : (2 : ℚ) ≠ 0 := by norm_num
  have hnumLow : (2 : ℚ) ^ (num.log2 : ℤ) ≤ num := by
    exact_mod_cast Nat.log2_self_le hnum.ne'
  have hnumHigh : (num : ℚ) < 2 ^ ((num.log2 : ℤ) + 1) := by
    exact_mod_cast Nat.lt_log2_self
  have hdenLow : (2 : ℚ) ^ (den.log2 : ℤ) ≤ den := by
    exact_mod_cast Nat.log2_self_le hden.ne'
  have hdenHigh : (den : ℚ) < 2 ^ ((den.log2 : ℤ) + 1) := by
    exact_mod_cast Nat.lt_log2_self
  unfold log2Ratio
  generalize hguess : (num.log2 : ℤ) - (den.log2 : ℤ) = guess
  have hnumLog : (num.log2 : ℤ) = guess + den.log2 := by omega
  rw [hnumLog] at hnumLow hnumHigh
  have htest : den * Nat.pow 2 guess.toNat ≤ num * Nat.pow 2 (-guess).toNat ↔
      (2 : ℚ) ^ guess ≤ num / den := by
    rw [zpow_eq_div_toNat, div_le_div_iff₀ (by positivity) hpos, mul_comm ((2 : ℚ) ^ _)]
    exact_mod_cast Iff.rfl
  simp only [htest]
  split
  case isTrue h =>
    refine ⟨h, ?_⟩
    rw [div_lt_iff₀ hpos]
    calc (num : ℚ) < 2 ^ (guess + den.log2 + 1) := hnumHigh
      _ = 2 ^ (guess + 1) * 2 ^ (den.log2 : ℤ) := by rw [← zpow_add₀ htwo]; ring_nf
      _ ≤ 2 ^ (guess + 1) * den := by gcongr
  case isFalse h =>
    refine ⟨?_, by rw [sub_add_cancel]; exact not_le.mp h⟩
    rw [le_div_iff₀ hpos]
    calc (2 : ℚ) ^ (guess - 1) * den
        ≤ 2 ^ (guess - 1) * 2 ^ ((den.log2 : ℤ) + 1) := by gcongr
      _ = 2 ^ (guess + den.log2) := by rw [← zpow_add₀ htwo]; ring_nf
      _ ≤ num := hnumLow

section Units

variable {scale : Nat} {y : ℚ}

/-- The unit of rounding leaves a fraction fifty-three bits, or is the least one. -/
theorem roundingScale_eq (hnum : 0 < num) (hden : 0 < den)
    (hy : (num : ℚ) / den = y * 2 ^ ((scale : ℤ) - 1074)) (hbits : y < 2 ^ 53)
    (hnormal : 0 < scale → 2 ^ 52 ≤ y) : (log2Ratio num den - 52 + 1074).toNat = scale := by
  have htwo : (2 : ℚ) ≠ 0 := by norm_num
  obtain ⟨hle, hlt⟩ := log2Ratio_bounds hnum hden
  have hhigh : log2Ratio num den < scale - 1021 := by
    refine (zpow_lt_zpow_iff_right₀ (one_lt_two : (1 : ℚ) < 2)).mp ?_
    calc (2 : ℚ) ^ log2Ratio num den ≤ y * 2 ^ ((scale : ℤ) - 1074) := hy ▸ hle
      _ < 2 ^ 53 * 2 ^ ((scale : ℤ) - 1074) := by gcongr
      _ = 2 ^ ((scale : ℤ) - 1021) := by
        rw [← zpow_natCast, ← zpow_add₀ htwo]
        ring_nf
  rcases Nat.eq_zero_or_pos scale with rfl | hscale
  · omega
  · have hlow : (scale : ℤ) - 1022 < log2Ratio num den + 1 := by
      refine (zpow_lt_zpow_iff_right₀ (one_lt_two : (1 : ℚ) < 2)).mp ?_
      calc (2 : ℚ) ^ ((scale : ℤ) - 1022) = 2 ^ 52 * 2 ^ ((scale : ℤ) - 1074) := by
            rw [← zpow_natCast, ← zpow_add₀ htwo]
            ring_nf
        _ ≤ y * 2 ^ ((scale : ℤ) - 1074) := by gcongr; exact hnormal hscale
        _ < 2 ^ (log2Ratio num den + 1) := hy ▸ hlt
    omega

/-- The quotient that is rounded is the fraction in terms of the unit. -/
theorem eq_quotient (hden : 0 < den) (hy : (num : ℚ) / den = y * 2 ^ ((scale : ℤ) - 1074)) :
    y = ((num * Nat.pow 2 (-((scale : ℤ) - 1074)).toNat : Nat) : ℚ) /
      ((den * Nat.pow 2 ((scale : ℤ) - 1074).toNat : Nat) : ℚ) := by
  rw [zpow_eq_div_toNat] at hy
  simp only [Nat.pow_eq]
  push_cast
  field_simp at hy ⊢
  linarith

/-- A fraction is rounded to the nearest multiple of its unit. -/
theorem nearestMagnitude_eq_min (hnum : 0 < num) (hden : 0 < den)
    (hy : (num : ℚ) / den = y * 2 ^ ((scale : ℤ) - 1074)) (hbits : y < 2 ^ 53)
    (hnormal : 0 < scale → 2 ^ 52 ≤ y) (hnearest : NearestEven y m) :
    nearestMagnitude num den = min infiniteMagnitude (scale * Nat.pow 2 52 + m) := by
  rw [eq_quotient hden hy] at hnearest
  have hround := roundDiv_eq (Nat.mul_pos hden (Nat.pow_pos two_pos)) hnearest
  simp only [nearestMagnitude, hnum.ne', if_false, roundingScale_eq hnum hden hy hbits hnormal]
  exact congrArg (fun m => min infiniteMagnitude (scale * Nat.pow 2 52 + m)) hround

/-- Just below a power of two the unit of rounding is only half as large, and the power is
reached from a quarter of the larger unit on. -/
theorem nearestMagnitude_below_power (hnum : 0 < num) (hden : 0 < den)
    (hy : (num : ℚ) / den = y * 2 ^ ((scale : ℤ) - 1074)) (hscale : 0 < scale)
    (hlow : 2 ^ 52 - 1 / 4 ≤ y) (hhigh : y < 2 ^ 52) :
    nearestMagnitude num den =
      min infiniteMagnitude (scale * Nat.pow 2 52 + Nat.pow 2 52) := by
  have hhalf : (num : ℚ) / den = 2 * y * 2 ^ (((scale - 1 : Nat) : ℤ) - 1074) := by
    rw [hy, show (scale : ℤ) - 1074 = ((scale - 1 : Nat) : ℤ) - 1074 + 1 by omega,
      zpow_add_one₀ two_ne_zero]
    ring
  have hnearest : NearestEven (2 * y) (Nat.pow 2 53) := by
    have hpower : ((Nat.pow 2 53 : Nat) : ℚ) = 2 ^ 53 := by norm_num
    refine ⟨?_, ?_, fun hodd => by simp at hodd⟩
    · rw [hpower]
      linarith
    · rw [hpower]
      linarith
  have hsum : (scale - 1) * Nat.pow 2 52 + Nat.pow 2 53 =
      scale * Nat.pow 2 52 + Nat.pow 2 52 := by
    have := Nat.mul_le_mul_right (Nat.pow 2 52) hscale
    rw [Nat.sub_mul, Nat.one_mul]
    simp only [Nat.pow_eq] at *
    omega
  rw [nearestMagnitude_eq_min hnum hden hhalf (by linarith) (fun _ => by linarith) hnearest, hsum]

/-- A fraction of which the greatest double is far away rounds to a finite one. -/
theorem nearestMagnitude_lt_infinite (hden : 0 < den) (h : (num : ℚ) / den < 2 ^ 1023) :
    nearestMagnitude num den < infiniteMagnitude := by
  rcases Nat.eq_zero_or_pos num with rfl | hnum
  · exact (by decide : 0 < infiniteMagnitude)
  have htwo : (2 : ℚ) ≠ 0 := by norm_num
  obtain ⟨hle, hlt⟩ := log2Ratio_bounds hnum hden
  have hlog : log2Ratio num den < 1023 := by
    refine (zpow_lt_zpow_iff_right₀ (one_lt_two : (1 : ℚ) < 2)).mp ?_
    exact_mod_cast hle.trans_lt h
  obtain ⟨scale, hscale⟩ : ∃ scale, (log2Ratio num den - 52 + 1074).toNat = scale := ⟨_, rfl⟩
  have hy : (num : ℚ) / den =
      num / den / 2 ^ ((scale : ℤ) - 1074) * 2 ^ ((scale : ℤ) - 1074) := by
    rw [div_mul_cancel₀ _ (by positivity)]
  have hbits : (num : ℚ) / den / 2 ^ ((scale : ℤ) - 1074) < (Nat.pow 2 53 : Nat) := by
    rw [div_lt_iff₀ (by positivity)]
    calc (num : ℚ) / den < 2 ^ (log2Ratio num den + 1) := hlt
      _ ≤ 2 ^ ((scale : ℤ) - 1021) := zpow_le_zpow_right₀ one_le_two (by omega)
      _ = 2 ^ (53 : ℤ) * 2 ^ ((scale : ℤ) - 1074) := by
        rw [← zpow_add₀ htwo]
        ring_nf
      _ = (Nat.pow 2 53 : Nat) * 2 ^ ((scale : ℤ) - 1074) := by norm_num
  rw [eq_quotient hden hy] at hbits
  have hround := roundDiv_le (Nat.mul_pos hden (Nat.pow_pos two_pos)) hbits
  simp only [nearestMagnitude, hnum.ne', if_false, hscale]
  refine (Nat.min_le_right _ _).trans_lt ?_
  calc scale * Nat.pow 2 52 + _ ≤ 2044 * Nat.pow 2 52 + Nat.pow 2 53 :=
        Nat.add_le_add (Nat.mul_le_mul_right _ (by omega)) hround
    _ < infiniteMagnitude := by decide

end Units

/-! ### Doubles as multiples of their last place -/

theorem scale_mul_add_significand (d : Double) :
    d.scale * Nat.pow 2 52 + d.significand = d.magnitude := by
  simp only [scale, significand, Nat.pow_eq]
  split <;> omega

theorem significand_lt (d : Double) : d.significand < Nat.pow 2 53 := by
  simp only [significand, Nat.pow_eq]
  split <;> omega

theorem le_significand (h : 0 < d.scale) : Nat.pow 2 52 ≤ d.significand := by
  simp only [scale, Nat.pow_eq] at h
  simp only [significand, Nat.pow_eq]
  split <;> omega

theorem scale_lt (h : d.isFinite = true) : d.scale < 2046 := by
  replace h : d.magnitude < 2047 * 2 ^ 52 := of_decide_eq_true h
  simp only [scale, Nat.pow_eq]
  omega

theorem significand_pos (h : 0 < d.magnitude) : 0 < d.significand := by
  simp only [significand, Nat.pow_eq]
  split <;> omega

/-- The unit in the last place of a double. -/
def ulp (d : Double) : ℚ := 2 ^ ((d.scale : ℤ) - 1074)

theorem ulp_pos (d : Double) : 0 < d.ulp := by
  unfold ulp
  positivity

/-- How far below a double the fractions begin that round to it, in units of its last place.
Below a power of two the neighbour is only half as far. -/
def reach (d : Double) : ℚ :=
  if d.significand = Nat.pow 2 52 ∧ 0 < d.scale then 1 / 4 else 1 / 2

theorem reach_le (d : Double) : d.reach ≤ 1 / 2 := by
  unfold reach
  split <;> norm_num

/-- A fraction lies between a positive double and the middles to its neighbours, where the
middles themselves go to the even significand. -/
structure RoundsTo (x : ℚ) (d : Double) : Prop where
  low : (d.significand - d.reach) * d.ulp ≤ x
  high : x ≤ (d.significand + 1 / 2) * d.ulp
  odd : d.significand % 2 = 1 →
    (d.significand - d.reach) * d.ulp < x ∧ x < (d.significand + 1 / 2) * d.ulp

/-- A fraction that rounds to a double is rounded to it. -/
theorem RoundsTo.nearestMagnitude_eq (h : RoundsTo ((num : ℚ) / den) d) (hnum : 0 < num)
    (hden : 0 < den) (hfinite : d.isFinite = true) : nearestMagnitude num den = d.magnitude := by
  -- The fraction in units of the last place.
  obtain ⟨y, hy⟩ : ∃ y : ℚ, (num : ℚ) / den = y * d.ulp :=
    ⟨num / den / d.ulp, by rw [div_mul_cancel₀ _ d.ulp_pos.ne']⟩
  have hlow : (d.significand : ℚ) - d.reach ≤ y :=
    le_of_mul_le_mul_right (hy ▸ h.low) d.ulp_pos
  have hhigh : y ≤ d.significand + 1 / 2 := le_of_mul_le_mul_right (hy ▸ h.high) d.ulp_pos
  have hodd (ho : d.significand % 2 = 1) : (d.significand : ℚ) - d.reach < y ∧
      y < d.significand + 1 / 2 :=
    ⟨lt_of_mul_lt_mul_right (hy ▸ (h.odd ho).1) d.ulp_pos.le,
      lt_of_mul_lt_mul_right (hy ▸ (h.odd ho).2) d.ulp_pos.le⟩
  have hreach := d.reach_le
  have hmin : min infiniteMagnitude (d.scale * Nat.pow 2 52 + d.significand) = d.magnitude := by
    rw [d.scale_mul_add_significand]
    exact Nat.min_eq_right (of_decide_eq_true hfinite).le
  by_cases hbelow : y < 2 ^ 52 ∧ 0 < d.scale
  · obtain ⟨hlt, hscale⟩ := hbelow
    have hpower : d.significand = Nat.pow 2 52 := by
      have : (d.significand : ℚ) < (2 ^ 52 + 1 : Nat) := by push_cast; linarith
      have := le_significand hscale
      simp only [Nat.pow_eq, Nat.cast_lt] at *
      omega
    have hquarter : d.reach = 1 / 4 := if_pos ⟨hpower, hscale⟩
    have hnear : 2 ^ 52 - 1 / 4 ≤ y := by
      rw [hpower, hquarter] at hlow
      exact_mod_cast hlow
    rw [← hmin, hpower]
    exact nearestMagnitude_below_power hnum hden hy hscale hnear hlt
  · have hbits : y < 2 ^ 53 := by
      have : (d.significand : ℚ) + 1 ≤ 2 ^ 53 := by exact_mod_cast d.significand_lt
      linarith
    have hnormal (hscale : 0 < d.scale) : 2 ^ 52 ≤ y :=
      le_of_not_gt fun hlt => hbelow ⟨hlt, hscale⟩
    have hnearest : NearestEven y d.significand :=
      ⟨by linarith, hhigh, fun ho => ⟨by linarith [(hodd ho).1], (hodd ho).2⟩⟩
    rw [← hmin]
    exact nearestMagnitude_eq_min hnum hden hy hbits hnormal hnearest

theorem RoundsTo.pos {x : ℚ} (h : RoundsTo x d) (hpos : 0 < d.magnitude) : 0 < x := by
  have hone : (1 : ℚ) ≤ d.significand := by exact_mod_cast significand_pos hpos
  have hreach := d.reach_le
  exact (mul_pos (by linarith) d.ulp_pos).trans_le h.low

/-! ### Reading decimals -/

theorem ofMagnitude_magnitude (d : Double) : ofMagnitude d.isNegative d.magnitude = d := by
  have hlt := d.bits.toNat_lt
  have hbits : (if d.isNegative = true then d.magnitude + Nat.pow 2 63 else d.magnitude) =
      d.bits.toNat := by
    simp only [isNegative, magnitude, Nat.pow_eq, decide_eq_true_eq]
    split <;> omega
  simp only [ofMagnitude, hbits, UInt64.ofNat_toNat]

theorem magnitude_ofMagnitude {negative : Bool} (h : m < Nat.pow 2 63) :
    (ofMagnitude negative m).magnitude = m := by
  simp only [Nat.pow_eq] at h
  cases negative
  all_goals
    simp only [ofMagnitude, magnitude, Nat.pow_eq, UInt64.toNat_ofNat', if_true,
      Bool.false_eq_true, if_false]
    omega

/-- A decimal that rounds to a double is read as that double. -/
theorem RoundsTo.ofDecimal_eq {digits : Nat} {exponent : ℤ} (negative : Bool)
    (h : RoundsTo (digits * 10 ^ exponent) d) (hpos : 0 < d.magnitude)
    (hfinite : d.isFinite = true) (hlow : -350 ≤ exponent) (hhigh : exponent ≤ 350) :
    ofDecimal negative digits exponent = ofMagnitude negative d.magnitude := by
  have hdigits : 0 < digits := by
    exact_mod_cast pos_of_mul_pos_left (h.pos hpos) (by positivity)
  have hfraction : (digits * 10 ^ exponent : ℚ) =
      ((digits * Nat.pow 10 exponent.toNat : Nat) : ℚ) / (Nat.pow 10 (-exponent).toNat : Nat) := by
    rw [zpow_eq_div_toNat, ← mul_div_assoc]
    simp
  rw [hfraction] at h
  have hnearest := h.nearestMagnitude_eq (Nat.mul_pos hdigits (Nat.pow_pos (by decide)))
    (Nat.pow_pos (by decide)) hfinite
  simp only [ofDecimal]
  rw [if_neg (by omega), if_neg (by omega)]
  exact congrArg _ hnearest

theorem isFinite_ofMagnitude {negative : Bool} (h : m < infiniteMagnitude) :
    (ofMagnitude negative m).isFinite = true := by
  refine decide_eq_true ?_
  rwa [magnitude_ofMagnitude (h.trans (by decide))]

/-- A whole number of 64 bits is read as a finite double. -/
theorem isFinite_ofDecimal {digits : Nat} (negative : Bool) (h : digits ≤ Nat.pow 2 64) :
    (ofDecimal negative digits 0).isFinite = true := by
  have hlt : (digits : ℚ) / (1 : Nat) < 2 ^ 1023 := by
    rw [Nat.cast_one, div_one]
    calc (digits : ℚ) ≤ (Nat.pow 2 64 : Nat) := Nat.cast_le.mpr h
      _ = 2 ^ 64 := by norm_num
      _ < 2 ^ 1023 := pow_lt_pow_right₀ one_lt_two (by norm_num)
  have hnearest := nearestMagnitude_lt_infinite Nat.one_pos hlt
  simp only [ofDecimal, neg_zero, Int.toNat_zero, Nat.pow_eq, pow_zero, mul_one]
  refine isFinite_ofMagnitude ?_
  split
  · exact (by decide : 0 < infiniteMagnitude)
  · rwa [if_neg (by decide)]

end AppendLowering.Double
