import AppendLowering.Decimal.Layout
import AppendLowering.Proofs.Text.Digits

/-!
# The characters of numbers

Whole numbers, and decimals in every layout, are made up of digits, signs, points and exponent
marks.
-/

namespace AppendLowering.Decimal

/-- The characters that occur in numbers. -/
def isNumberChar (c : Char) : Bool := c.isDigit || c == '-' || c == '+' || c == '.' || c == 'e'

/-- The text consists of characters of numbers. -/
def Numeric (text : List Char) : Prop := ∀ c ∈ text, isNumberChar c = true

/-- What holds of the digits and of the four other characters holds of numeric texts. -/
theorem Numeric.forall_mem {text : List Char} {p : Char → Bool} (h : Numeric text)
    (hdigit : ∀ c, c.isDigit = true → p c = true) (hminus : p '-' = true) (hplus : p '+' = true)
    (hpoint : p '.' = true) (hexponent : p 'e' = true) : ∀ c ∈ text, p c = true := by
  intro c hc
  have hnumber := h c hc
  simp only [isNumberChar, Bool.or_eq_true, beq_iff_eq] at hnumber
  rcases hnumber with (((hd | rfl) | rfl) | rfl) | rfl
  · exact hdigit c hd
  · exact hminus
  · exact hplus
  · exact hpoint
  · exact hexponent

namespace Numeric

variable {digits text text' : List Char}

theorem append (h : Numeric text) (h' : Numeric text') : Numeric (text ++ text') :=
  List.forall_mem_append.mpr ⟨h, h'⟩

theorem cons {c : Char} (hc : isNumberChar c = true) (h : Numeric text) : Numeric (c :: text) :=
  List.forall_mem_cons.mpr ⟨hc, h⟩

theorem take (h : Numeric text) (n : Nat) : Numeric (text.take n) :=
  fun c hc => h c (List.mem_of_mem_take hc)

theorem drop (h : Numeric text) (n : Nat) : Numeric (text.drop n) :=
  fun c hc => h c (List.mem_of_mem_drop hc)

theorem zeros (n : Nat) : Numeric (List.replicate n '0') :=
  fun _ hc => (List.eq_of_mem_replicate hc).symm ▸ by decide

theorem natural (n : Nat) : Numeric (Nat.repr n).toList := by
  intro c hc
  simp [isNumberChar, Text.isDigit_of_mem_repr hc]

theorem integer (i : Int) : Numeric (Int.repr i).toList := by
  cases i with
  | ofNat n => exact natural n
  | negSucc n =>
      rw [Int.repr, String.toList_append]
      exact append (List.all_eq_true.mp (by decide)) (natural _)

theorem positional (h : Numeric digits) (leading : Int) :
    Numeric (positional digits leading) := by
  unfold Decimal.positional
  split
  · exact (append (List.all_eq_true.mp (by decide)) (zeros _)).append h
  · have hpadded := h.append (zeros (leading.toNat + 1 + 1 - digits.length))
    exact (hpadded.take _).append (cons (by decide) (hpadded.drop _))

theorem scientific (h : Numeric digits) (plusSign : Bool) (leading : Int) :
    Numeric (scientific plusSign digits leading) := by
  have hexponent : Numeric (exponentText plusSign leading) := by
    unfold exponentText
    split
    · exact cons (by decide) (integer leading)
    · exact integer leading
  refine append (append (h.take 1) ?_) (cons (by decide) hexponent)
  split
  · simp [Numeric]
  · exact cons (by decide) (h.drop 1)

theorem magnitude (layout : Layout) (d : Double) : Numeric (layout.magnitude d) := by
  simp only [Layout.magnitude]
  split
  · exact (natural _).positional _
  · exact (natural _).scientific _ _

end Numeric

end AppendLowering.Decimal
