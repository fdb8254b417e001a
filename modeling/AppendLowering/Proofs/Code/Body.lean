import AppendLowering.Proofs.Code.Printable
import Mathlib.Algebra.Ring.Parity

/-!
# What the body of a C literal stands for

The grammar of literal bodies says which bytes a text between two quotes stands
for. An octal escape takes up to three digits and leaves no digit over that it
could have taken. The reader of literals follows this grammar, so a body that
is written for a text stands for the UTF-8 bytes of the text, and for nothing
else, whatever is written after it.
-/

namespace AppendLowering.CString

/-- The body stands for the bytes. -/
inductive Denotes : List Char → List UInt8 → Prop
  | nil : Denotes [] []
  | plain {c : Char} {rest : List Char} {bytes : List UInt8} (hprintable : isPrintable c = true)
      (hquote : c ≠ '\x22') (hbackslash : c ≠ '\\') (h : Denotes rest bytes) :
      Denotes (c :: rest) (String.utf8EncodeChar c ++ bytes)
  | short {c : Char} {byte : UInt8} {rest : List Char} {bytes : List UInt8}
      (hshort : shortEscape? c = some byte) (h : Denotes rest bytes) :
      Denotes ('\\' :: c :: rest) (byte :: bytes)
  | octal {digits rest : List Char} {value : Nat} {bytes : List UInt8}
      (hvalue : Text.number? 8 digits = some value) (hlength : digits.length ≤ 3)
      (hgreedy : digits.length = 3 ∨ ∀ c ∈ rest.head?, Text.digitIn? 8 c = none)
      (h : Denotes rest bytes) : Denotes ('\\' :: (digits ++ rest)) (UInt8.ofNat value :: bytes)

theorem shortEscape?_of_digit {c : Char} {digit : Nat} (h : Text.digitIn? 8 c = some digit) :
    shortEscape? c = none := by
  have hletter {letter : Char} (hnone : Text.digitIn? 8 letter = none) : c ≠ letter := by
    rintro rfl
    simp [hnone] at h
  unfold shortEscape?
  split
  · exact absurd rfl (hletter (by decide))
  · exact absurd rfl (hletter (by decide))
  · exact absurd rfl (hletter (by decide))
  · exact absurd rfl (hletter (by decide))
  · exact absurd rfl (hletter (by decide))
  · rfl

theorem ne_quote_of_digit {c : Char} {digit : Nat} (h : Text.digitIn? 8 c = some digit) :
    c ≠ '\x22' := by
  rintro rfl
  simp [show Text.digitIn? 8 '\x22' = none by decide] at h

namespace Scan

/-- Puts a byte before what is read. -/
def prepend (byte : UInt8) (result : List UInt8 × List Char) : List UInt8 × List Char :=
  (byte :: result.1, result.2)

/-- After one or two digits, what is no digit is read as if it stood alone. -/
theorem read_pending {scan : Scan} {value : Nat}
    (hscan : scan = .oneDigit value ∨ scan = .twoDigits value) {text : List Char}
    (hnone : ∀ c ∈ text.head?, Text.digitIn? 8 c = none) :
    scan.read text = (Scan.plain.read text).map (prepend (UInt8.ofNat value)) := by
  cases text with
  | nil => simp [read]
  | cons c text =>
      have hc : Text.digitIn? 8 c = none := hnone c rfl
      have hstep : scan.step c =
          (begin c).map fun next => (UInt8.ofNat value :: next.1, next.2) := by
        rcases hscan with rfl | rfl <;> simp only [step, hc]
      have hopen : scan ≠ .backslash := by rcases hscan with rfl | rfl <;> simp
      have hpending : scan.pending? = some [UInt8.ofNat value] := by
        rcases hscan with rfl | rfl <;> rfl
      by_cases hquote : c = '\x22'
      · rw [read, read, if_pos ⟨hquote, hopen⟩, if_pos ⟨hquote, by simp⟩, hpending]
        rfl
      · rw [read, read, if_neg (fun h => hquote h.1), if_neg (fun h => hquote h.1), hstep]
        simp only [step]
        cases begin c with
        | none => rfl
        | some next =>
            simp only [Option.map_some, Option.bind_eq_bind, Option.bind_some]
            cases next.2.read text <;> rfl

theorem Takes.silent {scan next : Scan} {text : List Char} (h : scan.Takes text [] next)
    (rest : List Char) : scan.read (text ++ rest) = next.read rest := by
  rw [h]
  simp

theorem Takes.digit {c : Char} {scan next : Scan} {digit : Nat} {bytes : List UInt8}
    (h : Text.digitIn? 8 c = some digit) (hstep : scan.step c = some (bytes, next)) :
    scan.Takes [c] bytes next :=
  single hstep fun hquote => absurd hquote (ne_quote_of_digit h)

end Scan

/-- Where the reader stands after the digits of an octal escape, and the byte that it has then
completed. -/
theorem takes_octal {digits : List Char} {value : Nat}
    (hvalue : Text.number? 8 digits = some value) (hlength : digits.length ≤ 3) :
    (digits.length < 3 ∧ ∃ scan, (scan = .oneDigit value ∨ scan = .twoDigits value) ∧
      Scan.plain.Takes ('\\' :: digits) [] scan) ∨
    Scan.plain.Takes ('\\' :: digits) [UInt8.ofNat value] .plain := by
  have first {c : Char} {digit : Nat} (h : Text.digitIn? 8 c = some digit) :
      Scan.plain.Takes ['\\', c] [] (.oneDigit digit) :=
    Scan.Takes.backslash.append (.digit h (by simp [Scan.step, shortEscape?_of_digit h, h]))
  have second {c c' : Char} {digit digit' : Nat} (h : Text.digitIn? 8 c = some digit)
      (h' : Text.digitIn? 8 c' = some digit') :
      Scan.plain.Takes ['\\', c, c'] [] (.twoDigits (8 * digit + digit')) :=
    (first h).append (.digit h' (by simp [Scan.step, h']))
  rcases digits with _ | ⟨c, _ | ⟨c', _ | ⟨c'', _ | more⟩⟩⟩
  · simp [Text.number?] at hvalue
  · obtain ⟨digit, h, rfl⟩ : ∃ digit, Text.digitIn? 8 c = some digit ∧ digit = value := by
      simpa [Text.number?, Text.ofDigits, Option.bind_eq_some_iff] using hvalue
    exact .inl ⟨by simp, _, .inl rfl, first h⟩
  · obtain ⟨digit, h, digit', h', rfl⟩ : ∃ digit, Text.digitIn? 8 c = some digit ∧
        ∃ digit', Text.digitIn? 8 c' = some digit' ∧ digit * 8 + digit' = value := by
      simpa [Text.number?, Text.ofDigits, Option.bind_eq_some_iff] using hvalue
    rw [Nat.mul_comm digit 8]
    exact .inl ⟨by simp, _, .inr rfl, second h h'⟩
  · obtain ⟨values, ⟨digit, h, digit', h', digit'', h'', rfl⟩, rfl⟩ :
        ∃ values, (∃ digit, Text.digitIn? 8 c = some digit ∧
          ∃ digit', Text.digitIn? 8 c' = some digit' ∧
            ∃ digit'', Text.digitIn? 8 c'' = some digit'' ∧ [digit, digit', digit''] = values) ∧
          Text.ofDigits 8 values = value := by
      simpa [Text.number?, Option.bind_eq_some_iff] using hvalue
    have hvalue : Text.ofDigits 8 [digit, digit', digit''] =
        8 * (8 * digit + digit') + digit'' := by
      simp [Text.ofDigits, Nat.mul_comm]
    rw [hvalue]
    exact .inr ((second h h').append (.digit h'' (by simp [Scan.step, h''])))
  · simp only [List.length_cons] at hlength
    omega

/-- The reader takes as many digits as belong to an octal escape. -/
theorem read_octal {digits rest : List Char} {value : Nat}
    (hvalue : Text.number? 8 digits = some value) (hlength : digits.length ≤ 3)
    (hgreedy : digits.length = 3 ∨ ∀ c ∈ rest.head?, Text.digitIn? 8 c = none) :
    Scan.plain.read ('\\' :: (digits ++ rest)) =
      (Scan.plain.read rest).map (Scan.prepend (UInt8.ofNat value)) := by
  rw [← List.cons_append]
  rcases takes_octal hvalue hlength with ⟨hshort, scan, hscan, htakes⟩ | htakes
  · have hnone := hgreedy.resolve_left (Nat.ne_of_lt hshort)
    rw [htakes.silent, Scan.read_pending hscan hnone]
  · exact htakes rest

/-- The digits at the head of a text, at most `n` of them. -/
theorem exists_digits (n : Nat) (text : List Char) :
    ∃ digits rest, text = digits ++ rest ∧ digits.length ≤ n ∧
      (∀ c ∈ digits, (Text.digitIn? 8 c).isSome = true) ∧
      (digits.length = n ∨ ∀ c ∈ rest.head?, Text.digitIn? 8 c = none) := by
  induction n generalizing text with
  | zero => exact ⟨[], text, rfl, Nat.le_refl 0, by simp, .inl rfl⟩
  | succ n ih =>
      cases text with
      | nil => exact ⟨[], [], rfl, Nat.zero_le _, by simp, .inr (by simp)⟩
      | cons c text =>
          cases hc : Text.digitIn? 8 c with
          | none => exact ⟨[], c :: text, rfl, Nat.zero_le _, by simp, .inr (by simp [hc])⟩
          | some digit =>
              obtain ⟨digits, rest, rfl, hlength, hdigits, hgreedy⟩ := ih text
              refine ⟨c :: digits, rest, rfl, Nat.succ_le_succ hlength, ?_, ?_⟩
              · exact List.forall_mem_cons.mpr ⟨by simp [hc], hdigits⟩
              · exact hgreedy.imp_left (congrArg (· + 1))

theorem exists_number? {digits : List Char} (hne : digits ≠ [])
    (h : ∀ c ∈ digits, (Text.digitIn? 8 c).isSome = true) :
    ∃ value, Text.number? 8 digits = some value := by
  have hvalues : ∃ values, digits.mapM (Text.digitIn? 8) = some values := by
    clear hne
    induction digits with
    | nil => exact ⟨[], rfl⟩
    | cons c rest ih =>
        rw [List.forall_mem_cons] at h
        obtain ⟨digit, hdigit⟩ := Option.isSome_iff_exists.mp h.1
        obtain ⟨values, hvalues⟩ := ih h.2
        exact ⟨digit :: values, by simp [hdigit, hvalues]⟩
  obtain ⟨values, hvalues⟩ := hvalues
  exact ⟨Text.ofDigits 8 values, by simp [Text.number?, hvalues, hne]⟩

/-- A quote after a text is no digit that the text could go on with. -/
theorem digitIn?_head?_quoted {text : List Char}
    (h : ∀ c ∈ text.head?, Text.digitIn? 8 c = none) (rest : List Char) :
    ∀ c ∈ (text ++ '\x22' :: rest).head?, Text.digitIn? 8 c = none := by
  cases text with
  | nil => simpa using (by decide : Text.digitIn? 8 '\x22' = none)
  | cons c text => exact h

/-- The reader follows the grammar. -/
theorem Denotes.read {body : List Char} {bytes : List UInt8} (h : Denotes body bytes)
    (rest : List Char) : Scan.plain.read (body ++ '\x22' :: rest) = some (bytes, rest) := by
  induction h with
  | nil => simp [Scan.read, Scan.pending?]
  | @plain c body bytes hprintable hquote hbackslash _ ih =>
      have htakes := Scan.Takes.printable hprintable hquote hbackslash (body ++ '\x22' :: rest)
      rw [ih] at htakes
      exact htakes
  | @short c byte body bytes hshort _ ih =>
      have htakes := Scan.Takes.short hshort (body ++ '\x22' :: rest)
      rw [ih] at htakes
      exact htakes
  | @octal digits body value bytes hvalue hlength hgreedy _ ih =>
      have hafter : digits.length = 3 ∨
          ∀ c ∈ (body ++ '\x22' :: rest).head?, Text.digitIn? 8 c = none :=
        hgreedy.imp_right fun hnone => digitIn?_head?_quoted hnone rest
      rw [List.cons_append, List.append_assoc, read_octal hvalue hlength hafter, ih]
      rfl

/-- The reader takes the text up to a closing quote, with nothing after it, for the bytes. -/
def Reads (body : List Char) (bytes : List UInt8) : Prop :=
  Scan.plain.read (body ++ ['\x22']) = some (bytes, [])

/-- What the reader takes for some bytes anywhere, it takes for them at the head of a body. -/
theorem reads_append_iff {piece body : List Char} {head bytes : List UInt8}
    (htakes : Scan.plain.Takes piece head .plain) :
    Reads (piece ++ body) bytes ↔ ∃ more, Reads body more ∧ bytes = head ++ more := by
  rw [Reads, List.append_assoc, htakes, Option.map_eq_some_iff]
  constructor
  · rintro ⟨⟨more, after⟩, hread, hresult⟩
    cases hresult
    exact ⟨more, hread, rfl⟩
  · rintro ⟨more, hread, rfl⟩
    exact ⟨(more, []), hread, rfl⟩

/-- The reader takes a digit after a backslash for the first of an octal escape. -/
theorem Reads.octal {c : Char} {digit : Nat} {body : List Char} {bytes : List UInt8}
    (hdigit : Text.digitIn? 8 c = some digit) (h : Reads ('\\' :: c :: body) bytes) :
    ∃ rest more, rest.length ≤ body.length ∧ Reads rest more ∧
      (Denotes rest more → Denotes ('\\' :: c :: body) bytes) := by
  obtain ⟨digits, rest, htext, hlength, hdigits, hgreedy⟩ := exists_digits 3 (c :: body)
  have hne : digits ≠ [] := by
    rintro rfl
    obtain rfl : c :: body = rest := htext
    simp [hdigit] at hgreedy
  obtain ⟨value, hvalue⟩ := exists_number? hne hdigits
  have hafter : digits.length = 3 ∨ ∀ c ∈ (rest ++ ['\x22']).head?, Text.digitIn? 8 c = none :=
    hgreedy.imp_right fun hnone => digitIn?_head?_quoted hnone []
  rw [Reads, htext, List.cons_append, List.append_assoc, read_octal hvalue hlength hafter] at h
  obtain ⟨⟨more, after⟩, hread, hresult⟩ := Option.map_eq_some_iff.mp h
  cases hresult
  refine ⟨rest, more, ?_, hread, fun hrest => htext ▸ .octal hvalue hlength hgreedy hrest⟩
  have hsum := congrArg List.length htext
  have hpos := List.length_pos_iff.mpr hne
  simp only [List.length_cons, List.length_append] at hsum
  omega

/-- What the reader takes off the head of a body is a piece of the grammar. -/
theorem Reads.cons {c : Char} {body : List Char} {bytes : List UInt8}
    (h : Reads (c :: body) bytes) :
    ∃ rest more, rest.length ≤ body.length ∧ Reads rest more ∧
      (Denotes rest more → Denotes (c :: body) bytes) := by
  by_cases hbackslash : c = '\\'
  · subst hbackslash
    cases body with
    | nil => simp [Reads, show Scan.plain.read ['\\', '\x22'] = none by decide] at h
    | cons c body =>
        cases hshort : shortEscape? c with
        | some byte =>
            obtain ⟨more, hmore, rfl⟩ := (reads_append_iff (.short hshort)).mp h
            exact ⟨body, more, Nat.le_succ _, hmore, .short hshort⟩
        | none =>
            cases hdigit : Text.digitIn? 8 c with
            | none => simp [Reads, Scan.read, Scan.step, Scan.begin, hshort, hdigit] at h
            | some digit =>
                obtain ⟨rest, more, hle, hmore, hdenotes⟩ := Reads.octal hdigit h
                exact ⟨rest, more, Nat.le_succ_of_le hle, hmore, hdenotes⟩
  · have hquote : c ≠ '\x22' := by
      rintro rfl
      simp [Reads, Scan.read, Scan.pending?] at h
    have hprintable : isPrintable c = true := by
      by_contra hcontrol
      simp [Reads, Scan.read, Scan.step, Scan.begin, hbackslash, hquote, hcontrol] at h
    obtain ⟨more, hmore, rfl⟩ := (reads_append_iff (.printable hprintable hquote hbackslash)).mp h
    exact ⟨body, more, Nat.le_refl _, hmore, .plain hprintable hquote hbackslash⟩

theorem denotes_iff_reads {body : List Char} {bytes : List UInt8} :
    Denotes body bytes ↔ Reads body bytes := by
  refine ⟨fun h => h.read [], fun h => ?_⟩
  -- The pieces of a body have several characters, so the induction is on its length.
  induction hlength : body.length using Nat.strong_induction_on generalizing body bytes with
  | _ n ih =>
      cases body with
      | nil =>
          obtain rfl : bytes = [] := by simpa [Reads, Scan.read, Scan.pending?] using h.symm
          exact .nil
      | cons c body =>
          obtain ⟨rest, more, hle, hmore, hdenotes⟩ := h.cons
          exact hdenotes (ih rest.length (by simp at hlength; omega) hmore rfl)

/-- The number of backslashes at the end of a text. -/
def trailingBackslashes (text : List Char) : Nat := (text.reverse.takeWhile (· = '\\')).length

theorem trailingBackslashes_append (text text' : List Char) :
    trailingBackslashes (text ++ text') =
      if trailingBackslashes text' = text'.length then text'.length + trailingBackslashes text
      else trailingBackslashes text' := by
  unfold trailingBackslashes
  rw [List.reverse_append, List.takeWhile_append, List.length_reverse]
  split
  · rw [List.length_append, List.length_reverse]
  · rfl

/-- Backslashes come in pairs, except before a quote: a run of them that a quote follows is odd, and
the one at the end is even. -/
structure Paired (text : List Char) : Prop where
  quotes : ∀ before after, text = before ++ '\x22' :: after → Odd (trailingBackslashes before)
  ending : Even (trailingBackslashes text)

namespace Paired

variable {text text' : List Char}

theorem nil : Paired [] where
  quotes before after h := by simp at h
  ending := .zero

theorem append (h : Paired text) (h' : Paired text') : Paired (text ++ text') where
  quotes before after heq := by
    rcases List.append_eq_append_iff.mp heq with ⟨more, rfl, htail⟩ | ⟨more, hhead, htail⟩
    · have hodd := h'.quotes more after htail
      rw [trailingBackslashes_append]
      split
      · next hall => exact (hall ▸ hodd).add_even h.ending
      · exact hodd
    · rcases List.cons_eq_append_iff.mp htail with ⟨rfl, rfl⟩ | ⟨more, rfl, -⟩
      · exact absurd (h'.quotes [] after rfl) (by decide)
      · exact h.quotes before more hhead
  ending := by
    rw [trailingBackslashes_append]
    split
    · next hall => exact (hall ▸ h'.ending).add h.ending
    · exact h'.ending

theorem flatMap {α : Type} {write : α → List Char} (h : ∀ a, Paired (write a)) (items : List α) :
    Paired (items.flatMap write) := by
  induction items with
  | nil => exact nil
  | cons a rest ih => exact (h a).append ih

theorem single {c : Char} (hquote : c ≠ '\x22') (hbackslash : c ≠ '\\') : Paired [c] where
  quotes before after h := by
    rcases List.cons_eq_append_iff.mp h with ⟨rfl, hhead⟩ | ⟨before, rfl, htail⟩
    · cases hhead
      exact absurd rfl hquote
    · simp at htail
  ending := by simp [trailingBackslashes, hbackslash]

theorem escaped (c : Char) : Paired ['\\', c] where
  quotes before after h := by
    rcases List.cons_eq_append_iff.mp h with ⟨rfl, hhead⟩ | ⟨before, rfl, htail⟩
    · simp at hhead
    · rcases List.cons_eq_append_iff.mp htail with ⟨rfl, -⟩ | ⟨before, rfl, hrest⟩
      · exact odd_one
      · simp at hrest
  ending := by
    by_cases hbackslash : c = '\\' <;> simp [trailingBackslashes, hbackslash]

end Paired

theorem octal_paired (byte : UInt8) : Paired (octal byte) := by
  have digit (n : Nat) : Paired [octalDigit n] := .single (octalDigit_ne n).1 (octalDigit_ne n).2
  exact (Paired.escaped (octalDigit (byte.toNat / 64))).append
    ((digit (byte.toNat / 8)).append (digit byte.toNat))

theorem escapeChar_paired (c : Char) : Paired (escapeChar c) := by
  unfold escapeChar
  split
  · exact .escaped _
  · exact .escaped _
  · exact .escaped _
  · exact .escaped _
  · exact .escaped _
  · next hlinefeed hreturn htab hbackslash hquote =>
      split
      · exact .single hquote hbackslash
      · exact .flatMap octal_paired _

theorem escape_paired (text : String) : Paired (escape text).toList := by
  rw [escape, String.toList_ofList]
  exact .flatMap escapeChar_paired text.toList

theorem denotes_escape_append (text : String) (rest : List Char) (bytes : List UInt8) :
    Denotes ((escape text).toList ++ rest) bytes ↔
      ∃ more, Denotes rest more ∧ bytes = utf8Bytes text ++ more := by
  simp only [denotes_iff_reads]
  exact reads_append_iff (escape_takes text)

theorem denotes_nil_iff {bytes : List UInt8} : Denotes [] bytes ↔ bytes = [] := by
  constructor
  · intro h
    cases h
    rfl
  · rintro rfl
    exact .nil

theorem utf8Bytes_injective : Function.Injective utf8Bytes := by
  intro text text' h
  have harray : text.toUTF8 = text'.toUTF8 := ByteArray.ext (Array.toList_inj.mp h)
  rwa [String.toUTF8_eq_toByteArray, String.toUTF8_eq_toByteArray, String.toByteArray_inj] at harray

/-- The body that is written for a text is printable ASCII, its quotes stand behind backslashes
that escape them, and it ends in no backslash that would escape what follows. It stands for the
UTF-8 bytes of the text and nothing else, also where digits follow it, and different texts have
different bodies. -/
theorem escape_faithful (text : String) :
    (∀ c ∈ (escape text).toList, 0x20 ≤ c.toNat ∧ c.toNat ≤ 0x7e) ∧
    (∀ before after, (escape text).toList = before ++ '\x22' :: after →
      Odd (trailingBackslashes before)) ∧
    Even (trailingBackslashes (escape text).toList) ∧
    (∀ bytes, Denotes (escape text).toList bytes ↔ bytes = utf8Bytes text) ∧
    (∀ rest bytes, Denotes ((escape text).toList ++ rest) bytes ↔
      ∃ more, Denotes rest more ∧ bytes = utf8Bytes text ++ more) ∧
    ∀ other, escape other = escape text ↔ other = text := by
  have hdenotes (text : String) (bytes : List UInt8) :
      Denotes (escape text).toList bytes ↔ bytes = utf8Bytes text := by
    simpa [denotes_nil_iff] using denotes_escape_append text [] bytes
  refine ⟨fun c hc => ?_, (escape_paired text).quotes, (escape_paired text).ending, hdenotes text,
    denotes_escape_append text, fun other => ⟨fun heq => ?_, congrArg escape⟩⟩
  · simpa [isPrintable] using escape_printable text c hc
  · have hother : Denotes (escape text).toList (utf8Bytes other) := heq ▸ (hdenotes other _).mpr rfl
    exact utf8Bytes_injective ((hdenotes text _).mp hother)

end AppendLowering.CString
