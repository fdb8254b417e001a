import AppendLowering.Json.Printer
import AppendLowering.Json.Word
import AppendLowering.Proofs.Decimal.Characters
import AppendLowering.Proofs.Decimal.Shortest
import AppendLowering.Proofs.Json.Token

/-!
# Reading written numbers

A whole number is read back from its digits, and a finite double from its
shortest decimal, however a layout places the point and the exponent.
-/

namespace AppendLowering

namespace Text

theorem number?_of_isDigit {text : List Char} (hne : text ≠ []) (h : ∀ c ∈ text, c.isDigit = true) :
    number? 10 text = some (Nat.ofDigitChars 10 text 0) := by
  have hempty : text.isEmpty = false := by simpa using hne
  rw [number?, hempty, mapM_digitIn?_ten h]
  exact congrArg some (ofDigits_ten text)

/-- A number is written without leading zeros. -/
theorem head?_repr_ne_zero {n : Nat} (h : 0 < n) : (Nat.repr n).toList.head? ≠ some '0' := by
  rw [Nat.toList_repr]
  induction n using Nat.strongRecOn with
  | ind n ih =>
      rcases lt_or_ge n 10 with hlt | hge
      · rw [Nat.toDigits_of_lt_base hlt]
        exact (by decide : ∀ n < 10, 0 < n → [Nat.digitChar n].head? ≠ some '0') n hlt h
      · rw [Nat.toDigits_of_base_le (by decide) hge,
          List.head?_append_of_ne_nil _ Nat.toDigits_ne_nil]
        exact ih (n / 10) (by omega) (by omega)

end Text

namespace Json

open Text

/-- The sign before a number. -/
def signText (negative : Bool) : List Char := if negative then ['-'] else []

section Words

variable {whole tail fraction after : List Char} {exponent : Int}

theorem takeWhile_isDigit_append (hwhole : ∀ c ∈ whole, c.isDigit = true)
    (htail : ∀ c ∈ tail.head?, c.isDigit = false) :
    (whole ++ tail).takeWhile Char.isDigit = whole ∧
      (whole ++ tail).dropWhile Char.isDigit = tail := by
  rw [List.takeWhile_append_of_pos hwhole, List.dropWhile_append_of_pos hwhole]
  cases tail with
  | nil => simp
  | cons c rest => simp [htail c rfl]

theorem fractionPart_point (hne : fraction ≠ []) (hfraction : ∀ c ∈ fraction, c.isDigit = true)
    (hafter : ∀ c ∈ after.head?, c.isDigit = false) :
    fractionPart ('.' :: (fraction ++ after)) = some (fraction, after) := by
  obtain ⟨htake, hdrop⟩ := takeWhile_isDigit_append hfraction hafter
  simp only [fractionPart, htake, hdrop]
  simp [hne]

/-- A number is its sign, the digits before the point, and a tail with a fraction and an
exponent, either of which may be missing. -/
theorem NumberParts.ofWord?_text (negative : Bool) (hne : whole ≠ [])
    (hwhole : ∀ c ∈ whole, c.isDigit = true) (hzero : whole.head? = some '0' → whole.length = 1)
    (htail : ∀ c ∈ tail.head?, c.isDigit = false)
    (hsplit : fractionPart tail = some (fraction, after))
    (hfraction : ∀ c ∈ fraction, c.isDigit = true)
    (hexponent : exponentPart after = some exponent) :
    NumberParts.ofWord? (signText negative ++ (whole ++ tail)) =
      some { negative, digits := Nat.ofDigitChars 10 (whole ++ fraction) 0
             exponent := exponent - (fraction.length : Int), integral := tail.isEmpty } := by
  obtain ⟨htake, hdrop⟩ := takeWhile_isDigit_append hwhole htail
  have hnumber : number? 10 (whole ++ fraction) =
      some (Nat.ofDigitChars 10 (whole ++ fraction) 0) :=
    number?_of_isDigit (by simp [hne]) fun c hc =>
      (List.mem_append.mp hc).elim (hwhole c) (hfraction c)
  have hlead : ¬(whole.isEmpty ∨ (1 < whole.length ∧ whole.head? = some '0')) := by
    rintro (hempty | ⟨hlength, hhead⟩)
    · simp [hne] at hempty
    · exact absurd (hzero hhead) hlength.ne'
  have hminus : (whole ++ tail).head? ≠ some '-' := by
    rw [List.head?_append_of_ne_nil _ hne]
    intro hhead
    exact absurd (hwhole '-' (List.mem_of_head? hhead)) (by decide)
  unfold NumberParts.ofWord?
  split
  next sign rest hsign =>
    have hparts : sign = negative ∧ rest = whole ++ tail := by
      cases negative with
      | true =>
          cases hsign
          exact ⟨rfl, rfl⟩
      | false =>
          split at hsign
          next hcons => exact absurd (congrArg List.head? hcons) hminus
          next =>
            cases hsign
            exact ⟨rfl, rfl⟩
    obtain ⟨rfl, rfl⟩ := hparts
    simp only [htake, hdrop, hsplit, hexponent, hnumber, if_neg hlead, Option.bind_eq_bind,
      Option.bind_some]
    rfl

/-- A word that is a number is not one of the named values. -/
theorem ofWord?_of_parts {word : List Char} {parts : NumberParts}
    (h : NumberParts.ofWord? word = some parts) : ofWord? word = parts.value? := by
  have hname (name : List Char) (hnone : NumberParts.ofWord? name = none) : word ≠ name := by
    rintro rfl
    cases hnone.symm.trans h
  rw [ofWord?, if_neg (hname _ (by decide)), if_neg (hname _ (by decide)),
    if_neg (hname _ (by decide)), h]
  rfl

end Words

/-! ### Whole numbers -/

section Whole

variable {n : Nat} {value : Int}

/-- A whole number of 64 bits, with or without a sign. -/
def FitsWord (value : Int) : Prop := -9223372036854775808 ≤ value ∧ value ≤ 18446744073709551615

theorem length_repr_of_head? (h : (Nat.repr n).toList.head? = some '0') :
    (Nat.repr n).toList.length = 1 := by
  rcases Nat.eq_zero_or_pos n with rfl | hpos
  · rfl
  · exact absurd h (head?_repr_ne_zero hpos)

theorem NumberParts.ofWord?_repr (negative : Bool) (n : Nat) :
    NumberParts.ofWord? (signText negative ++ (Nat.repr n).toList) =
      some { negative, digits := n, exponent := 0, integral := true } := by
  have hnone : fractionPart [] = some ([], []) := rfl
  have hparts := NumberParts.ofWord?_text negative (repr_ne_nil n) (fun _ => isDigit_of_mem_repr)
    length_repr_of_head? (by simp) hnone (by simp) rfl
  simpa [Nat.ofDigitChars_ten_toDigits] using hparts

/-- A whole number is read back from its digits. -/
theorem ofWord?_repr (h : FitsWord value) :
    ofWord? (Int.repr value).toList = some (.int value) := by
  cases value with
  | ofNat n =>
      have hlt : n < Nat.pow 2 64 := by
        have := h.2
        simp only [Nat.pow_eq, Int.ofNat_eq_natCast] at *
        omega
      calc ofWord? (Int.repr (.ofNat n)).toList = _ :=
            ofWord?_of_parts (NumberParts.ofWord?_repr false n)
        _ = some (.int (.ofNat n)) := if_pos ⟨rfl, rfl, hlt⟩
  | negSucc n =>
      have hle : n + 1 ≤ Nat.pow 2 63 := by
        have := h.1
        simp only [Nat.pow_eq, Int.negSucc_eq] at *
        omega
      have htext : (Int.repr (.negSucc n)).toList = signText true ++ (Nat.repr (n + 1)).toList :=
        toList_repr_negSucc n
      rw [htext, ofWord?_of_parts (NumberParts.ofWord?_repr true (n + 1))]
      exact (if_neg (by simp)).trans (if_pos ⟨rfl, rfl, Nat.succ_pos n, hle⟩)

end Whole

/-! ### Doubles -/

section Doubles

variable {digits : List Char} {leading exponent : Int} {d : Double}

/-- The text writes the unsigned number `digits * 10 ^ exponent` with a point or an exponent. -/
def WritesDecimal (text : List Char) (digits : Nat) (exponent : Int) : Prop :=
  ∀ negative : Bool, NumberParts.ofWord? (signText negative ++ text) =
    some { negative, digits, exponent, integral := false }

theorem writesDecimal_point (whole fraction after : List Char) (hne : whole ≠ [])
    (hwhole : ∀ c ∈ whole, c.isDigit = true) (hzero : whole.head? = some '0' → whole.length = 1)
    (hsome : fraction ≠ []) (hfraction : ∀ c ∈ fraction, c.isDigit = true)
    (hafter : ∀ c ∈ after.head?, c.isDigit = false)
    (hexponent : exponentPart after = some exponent) :
    WritesDecimal (whole ++ '.' :: (fraction ++ after)) (Nat.ofDigitChars 10 (whole ++ fraction) 0)
      (exponent - (fraction.length : Int)) := by
  intro negative
  refine NumberParts.ofWord?_text negative hne hwhole hzero ?_
    (fractionPart_point hsome hfraction hafter) hfraction hexponent
  simp

theorem exponentPart_digits (n : Nat) :
    exponentPart ('e' :: (Nat.repr n).toList) = some (n : Int) := by
  have hdigit (c : Char) (rest : List Char) (h : (Nat.repr n).toList = c :: rest) :
      c.isDigit = true := isDigit_of_mem_repr (h ▸ List.mem_cons_self)
  simp only [exponentPart, true_or, if_true]
  split
  next hminus => exact absurd (hdigit _ _ hminus) (by decide)
  next hplus => exact absurd (hdigit _ _ hplus) (by decide)
  next =>
    simp only [number?_repr]
    rfl

/-- An exponent is read back from its text. -/
theorem exponentPart_exponentText (plusSign : Bool) (exponent : Int) :
    exponentPart ('e' :: Decimal.exponentText plusSign exponent) = some exponent := by
  cases exponent with
  | ofNat n =>
      unfold Decimal.exponentText
      split
      · change exponentPart ('e' :: '+' :: (Nat.repr n).toList) = some (n : Int)
        simp only [exponentPart, true_or, if_true, number?_repr]
        rfl
      · exact exponentPart_digits n
  | negSucc n =>
      rw [Decimal.exponentText, if_neg (by simp), toList_repr_negSucc]
      simp only [exponentPart, true_or, if_true, number?_repr]
      rfl

theorem writesDecimal_scientific (plusSign : Bool) (leading : Int) (hne : digits ≠ [])
    (hdigits : ∀ c ∈ digits, c.isDigit = true) :
    WritesDecimal (Decimal.scientific plusSign digits leading) (Nat.ofDigitChars 10 digits 0)
      (leading + 1 - (digits.length : Int)) := by
  have hexponent := exponentPart_exponentText plusSign leading
  match digits with
  | [] => exact absurd rfl hne
  | [c] =>
      intro negative
      have hnone : fractionPart ('e' :: Decimal.exponentText plusSign leading) =
          some ([], 'e' :: Decimal.exponentText plusSign leading) := rfl
      have hparts := NumberParts.ofWord?_text negative hne hdigits (fun _ => rfl) (by simp) hnone
        (by simp) hexponent
      simpa [Decimal.scientific] using hparts
  | c :: c' :: rest =>
      rw [List.forall_mem_cons] at hdigits
      have hpoint := writesDecimal_point [c] (c' :: rest) _ (by simp) (by simpa using hdigits.1)
        (fun _ => rfl) (by simp) hdigits.2 (by simp) hexponent
      have hlength : leading + 1 - ((c :: c' :: rest).length : Int) =
          leading - ((c' :: rest).length : Int) := by
        simp only [List.length_cons]
        omega
      rw [hlength]
      exact hpoint

theorem isDigit_of_mem_replicate {count : Nat} {c : Char} (h : c ∈ List.replicate count '0') :
    c.isDigit = true := by
  rw [List.eq_of_mem_replicate h]
  rfl

theorem writesDecimal_positional_neg (hne : digits ≠ []) (hdigits : ∀ c ∈ digits, c.isDigit = true)
    (h : leading < 0) :
    WritesDecimal (Decimal.positional digits leading) (Nat.ofDigitChars 10 digits 0)
      (leading + 1 - (digits.length : Int)) := by
  have hpoint := writesDecimal_point ['0'] (List.replicate ((-leading).toNat - 1) '0' ++ digits) []
    (by simp) (by simp) (fun _ => rfl) (by simp [hne])
    (fun c hc => (List.mem_append.mp hc).elim isDigit_of_mem_replicate (hdigits c)) (by simp) rfl
  have hvalue : Nat.ofDigitChars 10
      (['0'] ++ (List.replicate ((-leading).toNat - 1) '0' ++ digits)) 0 =
        Nat.ofDigitChars 10 digits 0 := by
    simp [Nat.ofDigitChars_append, Nat.ofDigitChars_replicate_zero, Nat.ofDigitChars_cons]
  have hexponent : leading + 1 - (digits.length : Int) =
      0 - ((List.replicate ((-leading).toNat - 1) '0' ++ digits).length : Int) := by
    simp only [List.length_append, List.length_replicate]
    omega
  rw [Decimal.positional, if_pos h, hexponent, ← hvalue]
  simpa using hpoint

/-- A point after the first `count` digits. -/
theorem writesDecimal_split (digits : List Char) (count : Nat)
    (hdigits : ∀ c ∈ digits, c.isDigit = true) (hpos : 0 < count) (hlt : count < digits.length)
    (hzero : digits.head? = some '0' → count = 1) :
    WritesDecimal (digits.take count ++ '.' :: digits.drop count) (Nat.ofDigitChars 10 digits 0)
      ((count : Int) - (digits.length : Int)) := by
  have hlength : (digits.take count).length = count := by simp [hlt.le]
  have hne : digits.take count ≠ [] := List.ne_nil_of_length_pos (by omega)
  have hlead (hhead : (digits.take count).head? = some '0') : (digits.take count).length = 1 := by
    rw [List.head?_take, if_neg hpos.ne'] at hhead
    rw [hlength, hzero hhead]
  have hpoint := writesDecimal_point (digits.take count) (digits.drop count) [] hne
    (fun c hc => hdigits c (List.mem_of_mem_take hc)) hlead (by simp [hlt])
    (fun c hc => hdigits c (List.mem_of_mem_drop hc)) (by simp) rfl
  have hexponent : (count : Int) - (digits.length : Int) =
      0 - ((digits.drop count).length : Int) := by
    rw [List.length_drop]
    omega
  rw [List.take_append_drop, List.append_nil] at hpoint
  rwa [hexponent]

/-- Without enough digits before the point, or with none behind it, zeros are added. -/
theorem writesDecimal_positional_nonneg (hne : digits ≠ [])
    (hdigits : ∀ c ∈ digits, c.isDigit = true) (h : 0 ≤ leading)
    (hzero : digits.head? = some '0' → leading = 0) :
    WritesDecimal (Decimal.positional digits leading)
      (Nat.ofDigitChars 10 digits 0 * 10 ^ (leading.toNat + 2 - digits.length))
      (leading + 1 - (digits.length : Int) -
        ((leading.toNat + 2 - digits.length : Nat) : Int)) := by
  have hsplit := writesDecimal_split
    (digits ++ List.replicate (leading.toNat + 2 - digits.length) '0') (leading.toNat + 1)
    (fun c hc => (List.mem_append.mp hc).elim (hdigits c) isDigit_of_mem_replicate)
    (Nat.succ_pos _) (by simp; omega)
    (fun hhead => by
      rw [List.head?_append_of_ne_nil _ hne] at hhead
      have := hzero hhead
      omega)
  rw [Nat.ofDigitChars_append, Nat.ofDigitChars_replicate_zero, Nat.mul_comm, List.length_append,
    List.length_replicate] at hsplit
  have hexponent : leading + 1 - (digits.length : Int) -
      ((leading.toNat + 2 - digits.length : Nat) : Int) = ((leading.toNat + 1 : Nat) : Int) -
        ((digits.length + (leading.toNat + 2 - digits.length) : Nat) : Int) := by
    omega
  rw [Decimal.positional, if_neg (not_lt.mpr h), hexponent]
  exact hsplit

/-- A layout writes the shortest decimal of a double, with more zeros at most. -/
theorem writesDecimal_magnitude (layout : Decimal.Layout) {numeral : Decimal.Numeral}
    (hshortest : Decimal.shortest layout.tie d = numeral)
    (hzero : numeral.digits = 0 → numeral.exponent = 0) :
    ∃ zeros : Nat, (zeros = 0 ∨ (zeros : Int) = numeral.exponent + 1) ∧
      WritesDecimal (layout.magnitude d) (numeral.digits * 10 ^ zeros)
        (numeral.exponent - (zeros : Int)) := by
  have hdigits : ∀ c ∈ (Nat.repr numeral.digits).toList, c.isDigit = true :=
    fun _ => isDigit_of_mem_repr
  have hne := repr_ne_nil numeral.digits
  have hvalue : Nat.ofDigitChars 10 (Nat.repr numeral.digits).toList 0 = numeral.digits := by
    rw [Nat.toList_repr, Nat.ofDigitChars_ten_toDigits]
  have hhead (h : (Nat.repr numeral.digits).toList.head? = some '0') :
      numeral.exponent + ((Nat.repr numeral.digits).toList.length : Int) - 1 = 0 := by
    have hnone : numeral.digits = 0 := by
      by_contra hpos
      exact head?_repr_ne_zero (Nat.pos_of_ne_zero hpos) h
    rw [hzero hnone, hnone]
    rfl
  have hexponent : numeral.exponent + ((Nat.repr numeral.digits).toList.length : Int) - 1 + 1 -
      ((Nat.repr numeral.digits).toList.length : Int) = numeral.exponent := by omega
  simp only [Decimal.Layout.magnitude, hshortest]
  split
  · rcases lt_or_ge (numeral.exponent + ((Nat.repr numeral.digits).toList.length : Int) - 1) 0
      with hneg | hnonneg
    · refine ⟨0, .inl rfl, ?_⟩
      have hwrites := writesDecimal_positional_neg hne hdigits hneg
      rw [hvalue, hexponent] at hwrites
      simpa using hwrites
    · have hwrites := writesDecimal_positional_nonneg hne hdigits hnonneg hhead
      rw [hvalue, hexponent] at hwrites
      exact ⟨_, by omega, hwrites⟩
  · refine ⟨0, .inl rfl, ?_⟩
    have hwrites := writesDecimal_scientific layout.plusSign
      (numeral.exponent + ((Nat.repr numeral.digits).toList.length : Int) - 1) hne hdigits
    rw [hvalue, hexponent] at hwrites
    simpa using hwrites

/-- A decimal that a layout writes is read as the double that it was written for. -/
theorem exists_writesDecimal (layout : Decimal.Layout) (hfinite : d.isFinite = true) :
    ∃ digits exponent, WritesDecimal (layout.magnitude d) digits exponent ∧
      Double.ofDecimal d.isNegative digits exponent = d := by
  rcases Nat.eq_zero_or_pos d.magnitude with hnone | hpos
  · have hshortest : Decimal.shortest layout.tie d = { digits := 0, exponent := 0 } := if_pos hnone
    obtain ⟨zeros, -, hwrites⟩ := writesDecimal_magnitude layout hshortest (fun _ => rfl)
    refine ⟨_, _, hwrites, ?_⟩
    rw [Nat.zero_mul, Double.ofDecimal, if_pos (.inl rfl), ← hnone, Double.ofMagnitude_magnitude]
  · obtain ⟨hrounds, hlow, hhigh⟩ := Decimal.roundsTo_shortest layout.tie hpos hfinite
    generalize hshortest : Decimal.shortest layout.tie d = numeral at *
    have hsome : numeral.digits ≠ 0 := by
      intro hnone
      have := hrounds.pos hpos
      simp [hnone] at this
    obtain ⟨zeros, hzeros, hwrites⟩ :=
      writesDecimal_magnitude layout hshortest (fun hnone => absurd hnone hsome)
    have hvalue : ((numeral.digits * 10 ^ zeros : Nat) : ℚ) *
        10 ^ (numeral.exponent - (zeros : ℤ)) = numeral.digits * 10 ^ numeral.exponent := by
      rw [zpow_sub₀ (by norm_num), zpow_natCast]
      push_cast
      field_simp
    refine ⟨_, _, hwrites, ?_⟩
    rw [← hvalue] at hrounds
    rw [hrounds.ofDecimal_eq d.isNegative hpos hfinite (by omega) (by omega),
      Double.ofMagnitude_magnitude]

theorem toList_render (layout : Decimal.Layout) (h : d.isFinite = true) :
    (layout.render d).toList = signText d.isNegative ++ layout.magnitude d := by
  have hnumber : d.isNaN = false :=
    decide_eq_false (of_decide_eq_true h).le.not_gt
  simp only [Decimal.Layout.render, hnumber, h, Bool.false_eq_true, if_false, if_true]
  cases d.isNegative
  · simp [signText]
  · simp [signText, String.toList_append]

/-- A finite double is read back from its text in any layout. -/
theorem ofWord?_render (layout : Decimal.Layout) (h : d.isFinite = true) :
    ofWord? (layout.render d).toList = some (.float d) := by
  obtain ⟨digits, exponent, hwrites, hd⟩ := exists_writesDecimal layout h
  rw [toList_render layout h, ofWord?_of_parts (hwrites d.isNegative)]
  simp [NumberParts.value?, hd, h]

end Doubles

/-! ### The characters of numbers -/

open Token (isBlank isWordChar isWordChar_iff punctuation?)

theorem isWordChar_of_isDigit {c : Char} (h : c.isDigit = true) : isWordChar c = true := by
  refine isWordChar_iff.mpr ⟨?_, ?_, ?_⟩
  · by_contra hblank
    simp only [isBlank, Bool.not_eq_false, Bool.or_eq_true, beq_iff_eq] at hblank
    rcases hblank with ((rfl | rfl) | rfl) | rfl <;> exact absurd h (by decide)
  · rintro rfl
    exact absurd h (by decide)
  · unfold punctuation?
    split
    case h_7 => rfl
    all_goals exact absurd h (by decide)

theorem isWordChar_of_numeric {text : List Char} (h : Decimal.Numeric text) :
    ∀ c ∈ text, isWordChar c = true :=
  h.forall_mem (fun _ => isWordChar_of_isDigit) (by decide) (by decide) (by decide) (by decide)

theorem numeric_render (layout : Decimal.Layout) {d : Double} (h : d.isFinite = true) :
    Decimal.Numeric (layout.render d).toList := by
  rw [toList_render layout h]
  refine .append ?_ (.magnitude layout d)
  cases d.isNegative
  · exact List.all_eq_true.mp (by decide)
  · exact List.all_eq_true.mp (by decide)

end Json

end AppendLowering
