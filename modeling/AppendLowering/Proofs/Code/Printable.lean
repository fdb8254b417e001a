import AppendLowering.Compile.Expr
import AppendLowering.Proofs.Code.Literal
import AppendLowering.Proofs.Decimal.Characters
import AppendLowering.Proofs.Text.Lines

/-!
# The code of literals is printable

Whatever a literal holds, its code consists of printable characters: bodies of
string literals, character constants, and decimals in every layout.
-/

namespace AppendLowering

/-- The text consists of printable characters. -/
def Printable (text : List Char) : Prop := ∀ c ∈ text, CString.isPrintable c = true

namespace Printable

variable {text text' : List Char}

theorem append (h : Printable text) (h' : Printable text') : Printable (text ++ text') :=
  List.forall_mem_append.mpr ⟨h, h'⟩

theorem cons {c : Char} (hc : CString.isPrintable c = true) (h : Printable text) :
    Printable (c :: text) :=
  List.forall_mem_cons.mpr ⟨hc, h⟩

theorem flatMap {α : Type} {items : List α} {write : α → List Char}
    (h : ∀ a ∈ items, Printable (write a)) : Printable (items.flatMap write) := by
  intro c hc
  obtain ⟨a, ha, hmem⟩ := List.mem_flatMap.mp hc
  exact h a ha c hmem

theorem unbroken {text : String} (h : Printable text.toList) : Text.Unbroken text :=
  .of_chars (by decide) h

theorem isPrintable_of_isDigit {c : Char} (h : c.isDigit = true) :
    CString.isPrintable c = true := by
  have hbounds : '0' ≤ c ∧ c ≤ '9' := by simpa [Char.isDigit, Char.le_def] using h
  have hlow : 48 ≤ c.toNat := hbounds.1
  have hhigh : c.toNat ≤ 57 := hbounds.2
  simp only [CString.isPrintable, Bool.and_eq_true, decide_eq_true_eq]
  omega

theorem numeric (h : Decimal.Numeric text) : Printable text :=
  h.forall_mem (fun _ => isPrintable_of_isDigit) (by decide) (by decide) (by decide) (by decide)

theorem digits (n : Nat) : Printable (Nat.repr n).toList := numeric (.natural n)

theorem integer (i : Int) : Printable (Int.repr i).toList := numeric (.integer i)

end Printable

namespace CString

theorem octal_printable (byte : UInt8) : Printable (octal byte) := by
  have hdigit (n : Nat) : isPrintable (octalDigit n) = true :=
    octalDigit_forall (p := fun _ c => isPrintable c = true) (by decide) n
  exact .cons (by decide) (.cons (hdigit _) (.cons (hdigit _) (.cons (hdigit _)
    (by simp [Printable]))))

theorem escapeChar_printable (c : Char) : Printable (escapeChar c) := by
  unfold escapeChar
  split
  · exact List.all_eq_true.mp (by decide)
  · exact List.all_eq_true.mp (by decide)
  · exact List.all_eq_true.mp (by decide)
  · exact List.all_eq_true.mp (by decide)
  · exact List.all_eq_true.mp (by decide)
  · split
    · next hprintable => exact .cons hprintable (by simp [Printable])
    · exact .flatMap fun byte _ => octal_printable byte

theorem escape_printable (text : String) : Printable (escape text).toList := by
  rw [escape, String.toList_ofList]
  exact .flatMap fun c _ => escapeChar_printable c

theorem charConstant_printable (byte : UInt8) : Printable (charConstant byte).toList := by
  have hquote : Printable "'".toList := List.all_eq_true.mp (by decide)
  simp only [charConstant, String.toList_append, String.toList_ofList]
  refine (hquote.append ?_).append hquote
  split
  · exact List.all_eq_true.mp (by decide)
  · split
    · exact List.all_eq_true.mp (by decide)
    · split
      · exact escapeChar_printable _
      · exact octal_printable byte

end CString

/-- A layout whose words are printable writes every double in printable characters. -/
theorem Decimal.Layout.render_printable {layout : Layout}
    (hnan : Printable layout.notANumber.toList)
    (hinfinity : Printable layout.infinity.toList) (d : Double) :
    Printable (layout.render d).toList := by
  have hmagnitude : Printable
      (if d.isFinite then String.ofList (layout.magnitude d) else layout.infinity).toList := by
    split
    · rw [String.toList_ofList]
      exact .numeric (.magnitude layout d)
    · exact hinfinity
  simp only [render]
  split
  · exact hnan
  · generalize (if d.isFinite then String.ofList (layout.magnitude d) else layout.infinity) = text
      at hmagnitude
    split
    · rw [String.toList_append]
      exact Printable.append (List.all_eq_true.mp (by decide)) hmagnitude
    · exact hmagnitude

/-- The code of a literal is printable, whatever the literal holds. -/
theorem Literal.resolve_printable (value : Literal) : Printable value.resolve.2.toList := by
  cases value with
  | int value => exact .integer _
  | uint value => exact .digits _
  | long value => exact .integer _
  | ulong value => exact .digits _
  | char code => exact CString.charConstant_printable code
  | double value =>
      exact Decimal.Layout.render_printable (List.all_eq_true.mp (by decide))
        (List.all_eq_true.mp (by decide)) value
  | bool value => cases value <;> exact List.all_eq_true.mp (by decide)
  | string text => exact CString.escape_printable text
  | null => exact List.all_eq_true.mp (by decide)

end AppendLowering
