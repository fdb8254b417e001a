import AppendLowering.Json.Printer
import AppendLowering.Json.Token

/-!
# Reading written tokens

A written value is scanned into the tokens that it was put together from: words, quoted
strings and single characters. A word ends where the text ends or such a character follows.
-/

namespace AppendLowering.Json.Token

variable {text first second rest : List Char} {out tokens before after : List Token}

/-- The tokens of a text that follows `tokens`, the last of which comes first. -/
def scanAfter (tokens : List Token) (text : List Char) : Option (List Token) :=
  (text.foldlM Scanner.feed { tokens, mode := .between }).bind Scanner.finish

/-- A word that is read stops before this text. -/
def StopsWord (rest : List Char) : Prop := ∀ c ∈ rest.head?, (punctuation? c).isSome = true

/-- The text is scanned into the tokens, whatever stands around it. -/
def Scans (text : List Char) (out : List Token) : Prop :=
  ∀ tokens rest, StopsWord rest →
    scanAfter tokens (text ++ rest) = scanAfter (out.reverse ++ tokens) rest

theorem Scans.scan_eq (h : Scans text out) : scan text = some out := by
  have hall := h [] [] (by simp [StopsWord])
  rw [List.append_nil, List.append_nil] at hall
  calc scan text = scanAfter out.reverse [] := hall
    _ = some out := by simp [scanAfter, Scanner.finish]

theorem Scans.nil : Scans [] [] := fun _ _ _ => rfl

theorem not_blank_of_punctuation? {c : Char} {token : Token} (h : punctuation? c = some token) :
    isBlank c = false ∧ c ≠ '\x22' := by
  unfold punctuation? at h
  split at h
  case h_7 => cases h
  all_goals decide

/-- Two texts with a single character between them. -/
theorem Scans.punctuated {c : Char} {token : Token} (hfirst : Scans first before)
    (hc : punctuation? c = some token) (hsecond : Scans second after) :
    Scans (first ++ c :: second) (before ++ token :: after) := by
  intro tokens rest hrest
  obtain ⟨hblank, hquote⟩ := not_blank_of_punctuation? hc
  have hstep : scanAfter (before.reverse ++ tokens) (c :: (second ++ rest)) =
      scanAfter (token :: (before.reverse ++ tokens)) (second ++ rest) := by
    simp [scanAfter, Scanner.feed, step, start, hblank, hquote, hc]
  calc scanAfter tokens (first ++ c :: second ++ rest)
      = scanAfter tokens (first ++ c :: (second ++ rest)) := by simp
    _ = scanAfter (before.reverse ++ tokens) (c :: (second ++ rest)) :=
        hfirst _ _ (by simp [StopsWord, hc])
    _ = scanAfter (token :: (before.reverse ++ tokens)) (second ++ rest) := hstep
    _ = scanAfter ((before ++ token :: after).reverse ++ tokens) rest := by
        rw [hsecond _ _ hrest]
        simp

/-! ### Words -/

/-- A character that words may contain. -/
def isWordChar (c : Char) : Bool := !isBlank c && c != '\x22' && (punctuation? c).isNone

theorem isWordChar_iff {c : Char} : isWordChar c = true ↔
    isBlank c = false ∧ c ≠ '\x22' ∧ punctuation? c = none := by
  simp [isWordChar, and_assoc]

theorem foldlM_inWord {word : List Char} (h : ∀ c ∈ word, isWordChar c = true)
    (letters : List Char) :
    word.foldlM Scanner.feed { tokens, mode := .inWord letters } =
      some { tokens, mode := .inWord (word.reverse ++ letters) } := by
  induction word generalizing letters with
  | nil => rfl
  | cons c word ih =>
      rw [List.forall_mem_cons] at h
      have hc := isWordChar_iff.mp h.1
      have hfeed : Scanner.feed { tokens, mode := .inWord letters } c =
          some { tokens, mode := .inWord (c :: letters) } := by
        simp [Scanner.feed, step, hc]
      rw [List.foldlM_cons, hfeed]
      exact (ih h.2 (c :: letters)).trans (by simp)

theorem Scans.word {word : List Char} (hne : word ≠ []) (h : ∀ c ∈ word, isWordChar c = true) :
    Scans word [.word word] := by
  intro tokens rest hrest
  obtain ⟨c, word, rfl⟩ := List.exists_cons_of_ne_nil hne
  rw [List.forall_mem_cons] at h
  have hc := isWordChar_iff.mp h.1
  have hbegin : Scanner.feed { tokens, mode := .between } c =
      some { tokens, mode := .inWord [c] } := by
    simp [Scanner.feed, step, start, hc]
  have hword : (c :: word).foldlM Scanner.feed { tokens, mode := .between } =
      some { tokens, mode := .inWord (c :: word).reverse } := by
    rw [List.foldlM_cons, hbegin]
    exact (foldlM_inWord h.2 [c]).trans (by simp)
  simp only [scanAfter, List.foldlM_append, hword, Option.bind_eq_bind, Option.bind_some]
  cases rest with
  | nil => simp [Scanner.finish]
  | cons p rest =>
      have hp : (punctuation? p).isSome = true := hrest p rfl
      have hfeed : Scanner.feed { tokens, mode := .inWord (c :: word).reverse } p =
          Scanner.feed { tokens := .word (c :: word) :: tokens, mode := .between } p := by
        simp [Scanner.feed, step, hp]
      rw [List.foldlM_cons, List.foldlM_cons, hfeed]
      rfl

/-! ### Strings -/

theorem digitIn?_digitChar : ∀ n < 16, Text.digitIn? 16 (Nat.digitChar n) = some n := by
  decide

/-- The four digits of a control character. -/
theorem padded_hexDigits : ∀ n < 32,
    List.replicate (4 - (Text.hexDigits n).length) '0' ++ Text.hexDigits n =
      ['0', '0', Nat.digitChar (n / 16), Nat.digitChar (n % 16)] := by
  decide

/-- A character is read back from the way in which it is written in a string. -/
theorem foldlM_escapeChar (c : Char) (chars : List Char) :
    (escapeChar c).foldlM Scanner.feed { tokens, mode := .inText chars } =
      some { tokens, mode := .inText (c :: chars) } := by
  unfold escapeChar
  split
  case h_8 hquote hbackslash _ _ _ _ _ =>
    split
    next hcontrol =>
      have hhigh := digitIn?_digitChar (c.toNat / 16) (by omega)
      have hlow := digitIn?_digitChar (c.toNat % 16) (by omega)
      have hzero : Text.digitIn? 16 '0' = some 0 := by decide
      have hvalue : c.toNat / 16 * 16 + c.toNat % 16 = c.toNat := Nat.div_add_mod' ..
      have hchar : unicode chars none c.toNat = some (.inText (c :: chars)) := by
        simp only [unicode]
        rw [if_neg (by omega), if_neg (by omega), Char.ofNat_toNat]
      rw [List.append_assoc, padded_hexDigits _ hcontrol]
      simp [Scanner.feed, step, hzero, hhigh, hlow, hvalue, hchar]
    next hcontrol =>
      simp [Scanner.feed, step, hcontrol, if_neg hquote, if_neg hbackslash]
  all_goals rfl

theorem foldlM_escaped (value chars : List Char) :
    (value.flatMap escapeChar).foldlM Scanner.feed { tokens, mode := .inText chars } =
      some { tokens, mode := .inText (value.reverse ++ chars) } := by
  induction value generalizing chars with
  | nil => rfl
  | cons c value ih =>
      rw [List.flatMap_cons, List.foldlM_append, foldlM_escapeChar]
      exact (ih (c :: chars)).trans (by simp)

theorem Scans.quoted (value : String) : Scans (quoted value).toList [.text value] := by
  intro tokens rest _
  have htext : (Json.quoted value).toList ++ rest =
      '\x22' :: (value.toList.flatMap escapeChar ++ '\x22' :: rest) := by
    simp [Json.quoted, String.toList_append]
  have hopen : Scanner.feed { tokens, mode := .between } '\x22' =
      some { tokens, mode := .inText [] } := rfl
  have hclose : Scanner.feed { tokens, mode := .inText value.toList.reverse } '\x22' =
      some { tokens := .text value :: tokens, mode := .between } := by
    simp [Scanner.feed, step]
  simp only [scanAfter, htext, List.foldlM_cons, List.foldlM_append, hopen, Option.bind_eq_bind,
    Option.bind_some, foldlM_escaped, List.append_nil, hclose]
  rfl

end AppendLowering.Json.Token
