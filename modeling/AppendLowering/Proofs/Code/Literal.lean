import AppendLowering.Code.CString
import AppendLowering.Text.Digits

/-!
# Reading C string literals

A reader takes the body of a C literal up to the quote that closes it: printable
characters, the short escapes, and octal escapes of up to three digits, as many
of them as there are. What is written for a text is read back as its UTF-8
bytes, whatever stands after the closing quote.
-/

namespace AppendLowering.CString

/-- Where the reader stands: between characters, after a backslash, or after the first octal
digits of an escape. -/
inductive Scan where
  | plain
  | backslash
  | oneDigit (value : Nat)
  | twoDigits (value : Nat)
  deriving DecidableEq, Repr

/-- The byte of an escape without digits. -/
def shortEscape? : Char → Option UInt8
  | 'n' => some 10
  | 'r' => some 13
  | 't' => some 9
  | '\\' => some 92
  | '\x22' => some 34
  | _ => none

namespace Scan

/-- Takes a character that belongs to no escape before it. -/
def begin (c : Char) : Option (List UInt8 × Scan) :=
  if c = '\\' then some ([], .backslash)
  else if isPrintable c then some (String.utf8EncodeChar c, .plain)
  else none

/-- Takes a character of the body, and gives the bytes that it completes. -/
def step : Scan → Char → Option (List UInt8 × Scan)
  | .plain, c => begin c
  | .backslash, c =>
      match shortEscape? c with
      | some byte => some ([byte], .plain)
      | none => (Text.digitIn? 8 c).map fun digit => ([], .oneDigit digit)
  | .oneDigit value, c =>
      match Text.digitIn? 8 c with
      | some digit => some ([], .twoDigits (8 * value + digit))
      | none => (begin c).map fun next => (UInt8.ofNat value :: next.1, next.2)
  | .twoDigits value, c =>
      match Text.digitIn? 8 c with
      | some digit => some ([UInt8.ofNat (8 * value + digit)], .plain)
      | none => (begin c).map fun next => (UInt8.ofNat value :: next.1, next.2)

/-- The bytes that are complete if the literal closes here. -/
def pending? : Scan → Option (List UInt8)
  | .plain => some []
  | .backslash => none
  | .oneDigit value => some [UInt8.ofNat value]
  | .twoDigits value => some [UInt8.ofNat value]

/-- Reads a body up to its closing quote, and gives its bytes and the text after the quote. -/
def read : Scan → List Char → Option (List UInt8 × List Char)
  | _, [] => none
  | scan, c :: rest =>
      if c = '\x22' ∧ scan ≠ .backslash then
        scan.pending?.map fun bytes => (bytes, rest)
      else do
        let (bytes, next) ← scan.step c
        let (more, after) ← next.read rest
        return (bytes ++ more, after)

/-- Wherever the text stands in a body, the reader takes it for the given bytes. -/
def Takes (scan : Scan) (text : List Char) (bytes : List UInt8) (next : Scan) : Prop :=
  ∀ rest, scan.read (text ++ rest) =
    (next.read rest).map fun result => (bytes ++ result.1, result.2)

namespace Takes

variable {scan next last : Scan} {text text' : List Char} {bytes bytes' : List UInt8}

theorem nil (scan : Scan) : scan.Takes [] [] scan := by
  intro rest
  simp

theorem single {c : Char} (h : scan.step c = some (bytes, next))
    (hopen : c = '\x22' → scan = .backslash) : scan.Takes [c] bytes next := by
  intro rest
  have hquote : ¬ (c = '\x22' ∧ scan ≠ .backslash) := fun hboth => hboth.2 (hopen hboth.1)
  rw [List.singleton_append, read, if_neg hquote, h]
  simp only [Option.bind_eq_bind, Option.bind_some]
  cases next.read rest <;> rfl

theorem append (h : scan.Takes text bytes next) (h' : next.Takes text' bytes' last) :
    scan.Takes (text ++ text') (bytes ++ bytes') last := by
  intro rest
  rw [List.append_assoc, h, h', Option.map_map]
  simp [Function.comp_def]

theorem flatMap {α : Type} {write : α → List Char} {denoted : α → List UInt8}
    (h : ∀ a, Scan.plain.Takes (write a) (denoted a) .plain) (items : List α) :
    Scan.plain.Takes (items.flatMap write) (items.flatMap denoted) .plain := by
  induction items with
  | nil => exact nil .plain
  | cons a rest ih => exact (h a).append ih

/-- A printable character other than the quote and the backslash stands for itself. -/
theorem printable {c : Char} (h : isPrintable c = true) (hquote : c ≠ '\x22')
    (hbackslash : c ≠ '\\') : Scan.plain.Takes [c] (String.utf8EncodeChar c) .plain := by
  refine single ?_ fun h => absurd h hquote
  simp [step, begin, h, hbackslash]

theorem backslash : Scan.plain.Takes ['\\'] [] .backslash :=
  single rfl (by decide)

theorem short {c : Char} {byte : UInt8} (h : shortEscape? c = some byte) :
    Scan.plain.Takes ['\\', c] [byte] .plain := by
  refine backslash.append (single ?_ fun _ => rfl)
  simp [step, h]

end Takes

end Scan

/-- The last octal digit of a number, as it is written. -/
def octalDigit (n : Nat) : Char := Char.ofNat (48 + n % 8)

/-- There are eight octal digits. -/
theorem octalDigit_forall {p : Nat → Char → Prop} (h : ∀ m < 8, p m (Char.ofNat (48 + m)))
    (n : Nat) : p (n % 8) (octalDigit n) :=
  h (n % 8) (Nat.mod_lt n (by decide))

theorem digitIn?_octalDigit (n : Nat) : Text.digitIn? 8 (octalDigit n) = some (n % 8) :=
  octalDigit_forall (p := fun m c => Text.digitIn? 8 c = some m) (by decide) n

theorem shortEscape?_octalDigit (n : Nat) : shortEscape? (octalDigit n) = none :=
  octalDigit_forall (p := fun _ c => shortEscape? c = none) (by decide) n

theorem octalDigit_ne (n : Nat) : octalDigit n ≠ '\x22' ∧ octalDigit n ≠ '\\' :=
  octalDigit_forall (p := fun _ c => c ≠ '\x22' ∧ c ≠ '\\') (by decide) n

/-- Three digits are a whole escape: a digit after them does not join in. -/
theorem octal_takes (byte : UInt8) : Scan.plain.Takes (octal byte) [byte] .plain := by
  have hvalue : 8 * (8 * (byte.toNat / 64 % 8) + byte.toNat / 8 % 8) + byte.toNat % 8 =
      byte.toNat := by
    have := byte.toNat_lt
    omega
  have hopen (n : Nat) (scan : Scan) : octalDigit n = '\x22' → scan = .backslash :=
    fun h => absurd h (octalDigit_ne n).1
  have first : Scan.backslash.Takes [octalDigit (byte.toNat / 64)] []
      (.oneDigit (byte.toNat / 64 % 8)) :=
    .single (by simp [Scan.step, shortEscape?_octalDigit, digitIn?_octalDigit]) (hopen _ _)
  have second : (Scan.oneDigit (byte.toNat / 64 % 8)).Takes [octalDigit (byte.toNat / 8)] []
      (.twoDigits (8 * (byte.toNat / 64 % 8) + byte.toNat / 8 % 8)) :=
    .single (by simp [Scan.step, digitIn?_octalDigit]) (hopen _ _)
  have third : (Scan.twoDigits (8 * (byte.toNat / 64 % 8) + byte.toNat / 8 % 8)).Takes
      [octalDigit byte.toNat] [byte] .plain :=
    .single (by simp [Scan.step, digitIn?_octalDigit, hvalue]) (hopen _ _)
  exact Scan.Takes.backslash.append (first.append (second.append third))

theorem escapeChar_takes (c : Char) :
    Scan.plain.Takes (escapeChar c) (String.utf8EncodeChar c) .plain := by
  unfold escapeChar
  split
  · exact .short rfl
  · exact .short rfl
  · exact .short rfl
  · exact .short rfl
  · exact .short rfl
  · next hlinefeed hreturn htab hbackslash hquote =>
      split
      · next hprintable => exact .printable hprintable hquote hbackslash
      · have hbytes := Scan.Takes.flatMap octal_takes (String.utf8EncodeChar c)
        simpa using hbytes

/-- The UTF-8 bytes of a text. -/
def utf8Bytes (text : String) : List UInt8 := text.toUTF8.data.toList

theorem utf8Bytes_eq_flatMap (text : String) :
    utf8Bytes text = text.toList.flatMap String.utf8EncodeChar := by
  have hencoded : text.toUTF8 = text.toList.utf8Encode := by
    rw [← String.toByteArray_ofList, String.ofList_toList, String.toUTF8_eq_toByteArray]
  rw [utf8Bytes, hencoded, List.utf8Encode, List.toList_data_toByteArray]

/-- The body that is written for a text is read back as the bytes of the text. -/
theorem escape_takes (text : String) :
    Scan.plain.Takes (escape text).toList (utf8Bytes text) .plain := by
  rw [utf8Bytes_eq_flatMap, escape, String.toList_ofList]
  exact .flatMap escapeChar_takes text.toList

end AppendLowering.CString
