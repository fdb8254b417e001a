import AppendLowering.Decimal.Shortest
import AppendLowering.Proofs.Decimal.Rounding

/-!
# Shortest decimals round to their doubles

The search for the shortest decimal of a double ends, because the finest power of ten that it
tries is finer than the interval of the double, and what it finds lies in the interval.
-/

namespace AppendLowering.Decimal

open Double (RoundsTo)

variable {tie : Tie} {i : Interval} {d : Double} {step n : Nat} {exponent : Int}

/-! ### Powers of two and ten -/

theorem ten_pow_le_two_pow {a b : Nat} (h : 10 * a ≤ 3 * b) : 10 ^ a ≤ 2 ^ b := by
  refine (Nat.pow_le_pow_iff_left (n := 3) (by decide)).mp ?_
  calc (10 ^ a) ^ 3 = (10 ^ 3) ^ a := Nat.pow_right_comm ..
    _ ≤ (2 ^ 10) ^ a := Nat.pow_le_pow_left (by decide) a
    _ = 2 ^ (10 * a) := (Nat.pow_mul ..).symm
    _ ≤ 2 ^ (b * 3) := Nat.pow_le_pow_right two_pos (by omega)
    _ = (2 ^ b) ^ 3 := Nat.pow_mul ..

theorem two_pow_le_ten_pow {a b : Nat} (h : 28 * b ≤ 93 * a) : 2 ^ b ≤ 10 ^ a := by
  refine (Nat.pow_le_pow_iff_left (n := 28) (by decide)).mp ?_
  calc (2 ^ b) ^ 28 = 2 ^ (b * 28) := (Nat.pow_mul ..).symm
    _ ≤ 2 ^ (93 * a) := Nat.pow_le_pow_right two_pos (by omega)
    _ = (2 ^ 93) ^ a := Nat.pow_mul ..
    _ ≤ (10 ^ 28) ^ a := Nat.pow_le_pow_left (by decide) a
    _ = (10 ^ a) ^ 28 := Nat.pow_right_comm ..

/-! ### Multiples in an interval -/

theorem Interval.contains_iff : i.contains n = true ↔
    i.low ≤ n ∧ n ≤ i.high ∧ (i.closed = false → i.low < n ∧ n < i.high) := by
  unfold contains
  cases i.closed
  · simp
    omega
  · simp

/-- Of the two multiples around the value, one is chosen that lies in the interval. -/
theorem contains_of_nearestMultiple (h : nearestMultiple tie i step = some n) :
    i.contains (n * step) = true := by
  simp only [nearestMultiple] at h
  cases hbelow : i.contains (i.value / step * step) <;>
    cases habove : i.contains ((i.value / step + 1) * step) <;>
    simp only [hbelow, habove, reduceCtorEq, Option.some.injEq] at h
  · exact h ▸ habove
  · exact h ▸ hbelow
  · have hchoice : n = i.value / step ∨ n = i.value / step + 1 := by
      cases tie <;> grind
    rcases hchoice with rfl | rfl
    · exact hbelow
    · exact habove

theorem isSome_nearestMultiple (h : i.contains ((i.value / step + 1) * step) = true) :
    (nearestMultiple tie i step).isSome = true := by
  simp only [nearestMultiple, h]
  cases i.contains (i.value / step * step)
  · rfl
  · cases tie <;> grind

/-! ### The interval of a double -/

/-- The search measures in a common fraction of a quarter of the last place and of the power
of ten. -/
theorem exists_common_unit (d : Double) (exponent : Int) : ∃ unit : ℚ, 0 < unit ∧
    ((Nat.pow 2 ((d.scale : Int) - 1076).toNat * Nat.pow 10 (-exponent).toNat : Nat) : ℚ) * unit =
      d.ulp / 4 ∧
    ((Nat.pow 2 (-((d.scale : Int) - 1076)).toNat * Nat.pow 10 exponent.toNat : Nat) : ℚ) * unit =
      10 ^ exponent := by
  have hulp : d.ulp / 4 = 2 ^ ((d.scale : ℤ) - 1076) := by
    rw [Double.ulp, show (d.scale : ℤ) - 1074 = (d.scale : ℤ) - 1076 + 2 by ring,
      zpow_add₀ two_ne_zero]
    norm_num
  refine ⟨1 / (2 ^ (-((d.scale : Int) - 1076)).toNat * 10 ^ (-exponent).toNat), by positivity, ?_⟩
  rw [hulp, Double.zpow_eq_div_toNat 2, Double.zpow_eq_div_toNat 10]
  simp only [Nat.pow_eq]
  push_cast
  constructor <;> field_simp

theorem low_ofDouble (hpos : 0 < d.magnitude) :
    ((Interval.ofDouble d).low : ℚ) = 4 * (d.significand - d.reach) := by
  have hone := Double.significand_pos hpos
  have hscale : 1 < d.magnitude / Nat.pow 2 52 ↔ 0 < d.scale := by
    simp only [Double.scale]
    omega
  simp only [Interval.ofDouble, hscale, Double.reach]
  split
  · rw [Nat.cast_sub (by omega)]
    push_cast
    ring
  · rw [Nat.cast_sub (by omega)]
    push_cast
    ring

/-- A multiple in the interval of a double rounds to the double. -/
theorem roundsTo_of_atExponent {numeral : Numeral} (hpos : 0 < d.magnitude)
    (h : atExponent tie d exponent = some numeral) :
    numeral.exponent = exponent ∧ RoundsTo (numeral.digits * 10 ^ exponent) d := by
  obtain ⟨n, hn, rfl⟩ := Option.map_eq_some_iff.mp h
  obtain ⟨hge, hle, hopen⟩ := Interval.contains_iff.mp (contains_of_nearestMultiple hn)
  obtain ⟨unit, hunit, hulp, hten⟩ := exists_common_unit d exponent
  simp only [Interval.scaled] at hge hle hopen
  generalize Nat.pow 2 ((d.scale : Int) - 1076).toNat * Nat.pow 10 (-exponent).toNat = factor at *
  generalize Nat.pow 2 (-((d.scale : Int) - 1076)).toNat * Nat.pow 10 exponent.toNat = step at *
  have hlow : (d.significand - d.reach) * d.ulp =
      ((Interval.ofDouble d).low * factor : Nat) * unit := by
    push_cast
    rw [low_ofDouble hpos, mul_assoc, hulp]
    ring
  have hhigh : (d.significand + 1 / 2) * d.ulp =
      ((Interval.ofDouble d).high * factor : Nat) * unit := by
    push_cast [Interval.ofDouble]
    rw [mul_assoc, hulp]
    ring
  have hvalue : (n : ℚ) * 10 ^ exponent = (n * step : Nat) * unit := by
    push_cast
    rw [mul_assoc, hten]
  have hmono {a b : Nat} (hab : a ≤ b) : (a : ℚ) * unit ≤ b * unit :=
    mul_le_mul_of_nonneg_right (Nat.cast_le.mpr hab) hunit.le
  have hstrict {a b : Nat} (hab : a < b) : (a : ℚ) * unit < b * unit :=
    mul_lt_mul_of_pos_right (Nat.cast_lt.mpr hab) hunit
  refine ⟨rfl, ?_, ?_, fun hodd => ?_⟩
  · rw [hlow, hvalue]
    exact hmono hge
  · rw [hhigh, hvalue]
    exact hmono hle
  · obtain ⟨hgt, hlt⟩ := hopen (by simp [Interval.ofDouble, hodd])
    rw [hlow, hhigh, hvalue]
    exact ⟨hstrict hgt, hstrict hlt⟩

/-! ### The search -/

/-- Multiples of less than a quarter of the last place do not miss the interval. -/
theorem isSome_atExponent
    (h : Nat.pow 2 (-((d.scale : Int) - 1076)).toNat * Nat.pow 10 exponent.toNat ≤
      Nat.pow 2 ((d.scale : Int) - 1076).toNat * Nat.pow 10 (-exponent).toNat) :
    (atExponent tie d exponent).isSome = true := by
  simp only [atExponent, Option.isSome_map]
  have hpos : 0 < Nat.pow 2 (-((d.scale : Int) - 1076)).toNat * Nat.pow 10 exponent.toNat :=
    Nat.mul_pos (Nat.pow_pos (by decide)) (Nat.pow_pos (by decide))
  generalize Nat.pow 2 ((d.scale : Int) - 1076).toNat * Nat.pow 10 (-exponent).toNat = factor at *
  generalize Nat.pow 2 (-((d.scale : Int) - 1076)).toNat * Nat.pow 10 exponent.toNat = step at *
  refine isSome_nearestMultiple (Interval.contains_iff.mpr ?_)
  simp only [Interval.scaled]
  have habove := Nat.lt_div_mul_add (a := (Interval.ofDouble d).value * factor) hpos
  have hbelow := Nat.div_mul_le_self ((Interval.ofDouble d).value * factor) step
  have hlow : (Interval.ofDouble d).low * factor ≤ (Interval.ofDouble d).value * factor := by
    refine Nat.mul_le_mul_right factor ?_
    simp only [Interval.ofDouble]
    split <;> omega
  have hhigh : (Interval.ofDouble d).high * factor =
      (Interval.ofDouble d).value * factor + 2 * factor := by
    simp only [Interval.ofDouble, Nat.add_mul]
  rw [Nat.add_mul, Nat.one_mul]
  omega

/-- The finest power of ten that is tried is less than a quarter of the last place. -/
theorem isSome_findSome_exponents (hfinite : d.isFinite = true) :
    ((exponents d).findSome? (atExponent tie d)).isSome = true := by
  have hscale := Double.scale_lt hfinite
  rw [List.findSome?_isSome_iff]
  refine ⟨((d.scale : Int) - 1021) * 30103 / 100000 + 1 - (23 : Nat),
    List.mem_map.mpr ⟨23, by decide, rfl⟩, isSome_atExponent ?_⟩
  generalize hexponent : ((d.scale : Int) - 1021) * 30103 / 100000 + 1 - (23 : Nat) = exponent
  simp only [Nat.pow_eq]
  rcases le_total 0 exponent with hten | hten
  · have hpowers := ten_pow_le_two_pow (show 10 * exponent.toNat ≤
      3 * ((d.scale : Int) - 1076).toNat by omega)
    rwa [show (-((d.scale : Int) - 1076)).toNat = 0 by omega, show (-exponent).toNat = 0 by omega,
      pow_zero, pow_zero, one_mul, mul_one]
  · have hpowers := two_pow_le_ten_pow (show 28 * (-((d.scale : Int) - 1076)).toNat ≤
      93 * (-exponent).toNat by omega)
    rw [show exponent.toNat = 0 by omega, pow_zero, mul_one]
    exact hpowers.trans (Nat.le_mul_of_pos_left _ (Nat.pow_pos two_pos))

/-- The shortest decimal of a double rounds to it. -/
theorem roundsTo_shortest (tie : Tie) (hpos : 0 < d.magnitude) (hfinite : d.isFinite = true) :
    RoundsTo ((shortest tie d).digits * 10 ^ (shortest tie d).exponent) d ∧
      -350 < (shortest tie d).exponent ∧ (shortest tie d).exponent < 350 := by
  obtain ⟨numeral, hfound⟩ := Option.isSome_iff_exists.mp (isSome_findSome_exponents hfinite)
  obtain ⟨exponent, hmem, hat⟩ := List.exists_of_findSome?_eq_some hfound
  obtain ⟨hexponent, hrounds⟩ := roundsTo_of_atExponent hpos hat
  have hshortest : shortest tie d = numeral := by
    rw [shortest, if_neg hpos.ne', hfound]
    rfl
  obtain ⟨k, hk, htop⟩ := List.mem_map.mp hmem
  have := List.mem_range.mp hk
  have := Double.scale_lt hfinite
  rw [hshortest, hexponent]
  exact ⟨hrounds, by omega, by omega⟩

end AppendLowering.Decimal
