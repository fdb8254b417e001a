import AppendLowering.Text.Digits

/-!
# Reading numbers

A number that is written in decimal digits is read back from them.
-/

namespace AppendLowering.Text

theorem digitIn?_ten {c : Char} (h : c.isDigit = true) : digitIn? 10 c = some (c.toNat - 48) := by
  have hbounds : '0' ≤ c ∧ c ≤ '9' := by
    simpa [Char.isDigit, Char.le_def] using h
  have hle : c.toNat ≤ 57 := hbounds.2
  have hlt : c.toNat - 48 < 10 := by omega
  simp [digitIn?, hbounds, hlt]

theorem mapM_digitIn?_ten {text : List Char} (h : ∀ c ∈ text, c.isDigit = true) :
    text.mapM (digitIn? 10) = some (text.map fun c => c.toNat - 48) := by
  induction text with
  | nil => rfl
  | cons c rest ih =>
      rw [List.forall_mem_cons] at h
      rw [List.mapM_cons, digitIn?_ten h.1, ih h.2]
      rfl

theorem ofDigits_ten (text : List Char) :
    ofDigits 10 (text.map fun c => c.toNat - 48) = Nat.ofDigitChars 10 text 0 := by
  simp only [ofDigits, Nat.ofDigitChars, List.foldl_map, Nat.mul_comm 10]
  rfl

theorem isDigit_of_mem_repr {n : Nat} {c : Char} (h : c ∈ (Nat.repr n).toList) :
    c.isDigit = true := by
  rw [Nat.toList_repr] at h
  exact Nat.isDigit_of_mem_toDigits (by decide) (by decide) h

theorem repr_ne_nil (n : Nat) : (Nat.repr n).toList ≠ [] := by
  rw [Nat.toList_repr]
  exact Nat.toDigits_ne_nil

theorem toList_repr_negSucc (n : Nat) :
    (Int.repr (.negSucc n)).toList = '-' :: (Nat.repr (n + 1)).toList := by
  simp [Int.repr]

theorem number?_repr (n : Nat) : number? 10 (Nat.repr n).toList = some n := by
  have hempty : (Nat.repr n).toList.isEmpty = false := by simp
  calc number? 10 (Nat.repr n).toList
      = some (ofDigits 10 ((Nat.repr n).toList.map fun c => c.toNat - 48)) := by
        rw [number?, hempty, mapM_digitIn?_ten fun _ => isDigit_of_mem_repr]
        rfl
    _ = some (Nat.ofDigitChars 10 (Nat.toDigits 10 n) 0) := by rw [ofDigits_ten, Nat.toList_repr]
    _ = some n := by rw [Nat.ofDigitChars_ten_toDigits]

/-- A sign is no digit. -/
theorem number?_minus (text : List Char) : number? 10 ('-' :: text) = none := by
  simp [number?, List.mapM_cons, show digitIn? 10 '-' = none by decide]

end AppendLowering.Text
