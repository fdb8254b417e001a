import AppendLowering.Append.Call
import AppendLowering.Proofs.Code.Literal

/-!
# Reading the arguments of a call

A reader splits the text of a call at the commas that stand outside of inner
parentheses and of literals. It gets back the arguments that the call was
rendered from, provided that each of them closes what it opens.
-/

namespace AppendLowering

/-- Where a reader of code stands: outside of literals, inside one, or behind a backslash in
one, and inside how many parentheses. -/
inductive Place where
  | code (depth : Nat)
  | literal (depth : Nat)
  | escaped (depth : Nat)
  deriving DecidableEq, Repr

namespace Place

/-- The place after a character. -/
def next : Place → Char → Place
  | .code depth, c =>
      if c = '(' then .code (depth + 1)
      else if c = ')' then .code (depth - 1)
      else if c = '\x22' then .literal depth
      else .code depth
  | .literal depth, c =>
      if c = '\\' then .escaped depth
      else if c = '\x22' then .code depth
      else .literal depth
  | .escaped depth, _ => .literal depth

/-- Whether the character separates two arguments. -/
def separates (place : Place) (c : Char) : Bool := place = .code 0 && c = ','

/-- The arguments in a text, which begins inside the first of them. -/
def split : Place → List Char → List (List Char)
  | _, [] => [[]]
  | place, c :: rest =>
      if place.separates c then [] :: place.split rest
      else ((place.next c).split rest).modifyHead (c :: ·)

/-- The text belongs to one argument and leads from one place to another. -/
def Leads (place : Place) (text : List Char) (last : Place) : Prop :=
  ∀ rest, place.split (text ++ rest) = (last.split rest).modifyHead (text ++ ·)

namespace Leads

variable {place last last' : Place} {text text' : List Char}

theorem nil (place : Place) : place.Leads [] place := by
  intro rest
  cases h : place.split rest <;> simp [h]

theorem single {c : Char} (h : place.separates c = false) (hnext : place.next c = last) :
    place.Leads [c] last := by
  intro rest
  rw [List.singleton_append, split, if_neg (by simp [h]), hnext]
  rfl

theorem append (h : place.Leads text last) (h' : last.Leads text' last') :
    place.Leads (text ++ text') last' := by
  intro rest
  rw [List.append_assoc, h, h', List.modifyHead_modifyHead]
  congr 1
  funext part
  simp

/-- If every piece leads back to a place, all of them together do. -/
theorem flatMap {α : Type} {write : α → List Char} {items : List α}
    (h : ∀ a ∈ items, place.Leads (write a) place) : place.Leads (items.flatMap write) place := by
  induction items with
  | nil => exact nil place
  | cons a rest ih =>
      exact (h a List.mem_cons_self).append (ih fun b hb => h b (List.mem_cons_of_mem a hb))

theorem chars (h : ∀ c ∈ text, place.Leads [c] place) : place.Leads text place := by
  have hchars : text.flatMap (fun c => [c]) = text := by simp
  exact hchars ▸ flatMap h

end Leads

/-- The character opens and closes nothing in code. -/
def isPlain (c : Char) : Bool := c ≠ '(' && c ≠ ')' && c ≠ ',' && c ≠ '\x22'

theorem leads_of_plain {depth : Nat} {text : List Char} (h : ∀ c ∈ text, isPlain c = true) :
    (code depth).Leads text (code depth) := by
  refine .chars fun c hc => ?_
  have hplain : ((c ≠ '(' ∧ c ≠ ')') ∧ c ≠ ',') ∧ c ≠ '\x22' := by simpa [isPlain] using h c hc
  obtain ⟨⟨⟨hopen, hclose⟩, hcomma⟩, hquote⟩ := hplain
  exact .single (by simp [separates, hcomma]) (by simp [next, hopen, hclose, hquote])

/-- In a literal, a character that is neither a quote nor a backslash changes nothing. -/
theorem leads_of_literal {depth : Nat} {c : Char} (hquote : c ≠ '\x22') (hbackslash : c ≠ '\\') :
    (literal depth).Leads [c] (literal depth) :=
  .single (by simp [separates]) (by simp [next, hquote, hbackslash])

/-- A backslash protects the character after it. -/
theorem leads_of_backslash (depth : Nat) (c : Char) :
    (literal depth).Leads ['\\', c] (literal depth) := by
  have hbackslash : (literal depth).Leads ['\\'] (escaped depth) :=
    .single (by simp [separates]) (by simp [next])
  exact hbackslash.append (.single (by simp [separates]) rfl)

end Place

namespace CString

open Place

theorem octal_leads (depth : Nat) (byte : UInt8) :
    (literal depth).Leads (octal byte) (literal depth) := by
  have hdigit (n : Nat) : (literal depth).Leads [octalDigit n] (literal depth) :=
    leads_of_literal (octalDigit_ne n).1 (octalDigit_ne n).2
  exact (leads_of_backslash depth _).append ((hdigit _).append (hdigit _))

/-- The body of a literal is inside the literal from its first to its last character. -/
theorem escape_leads (depth : Nat) (text : String) :
    (literal depth).Leads (escape text).toList (literal depth) := by
  rw [escape, String.toList_ofList]
  refine .flatMap fun c _ => ?_
  unfold escapeChar
  split
  · exact leads_of_backslash depth _
  · exact leads_of_backslash depth _
  · exact leads_of_backslash depth _
  · exact leads_of_backslash depth _
  · exact leads_of_backslash depth _
  · next hbackslash hquote =>
      split
      · exact leads_of_literal hquote hbackslash
      · exact .flatMap fun byte _ => octal_leads depth byte

end CString

/-- The text is one argument, from its first character on. -/
structure IsArgument (text : String) : Prop where
  leads : (Place.code 0).Leads text.toList (Place.code 0)
  begins : text.toList.head? ≠ some ' '

namespace IsArgument

/-- A text is one argument if none of its characters means anything to the reader. -/
theorem of_chars {text : String} (allowed : Char → Bool)
    (hmarks : ['(', ')', ',', '\x22', ' '].all (fun c => !allowed c) = true)
    (h : ∀ c ∈ text.toList, allowed c = true) : IsArgument text := by
  have hallowed : ∀ d ∈ ['(', ')', ',', '\x22', ' '], allowed d = false := by
    intro d hd
    simpa using List.all_eq_true.1 hmarks d hd
  have hne (c d : Char) (hc : c ∈ text.toList) (hd : allowed d = false) : c ≠ d := by
    rintro rfl
    simp [h c hc] at hd
  constructor
  · refine Place.leads_of_plain fun c hc => ?_
    simp [Place.isPlain, hne c _ hc (hallowed '(' (by decide)),
      hne c _ hc (hallowed ')' (by decide)), hne c _ hc (hallowed ',' (by decide)),
      hne c _ hc (hallowed '\x22' (by decide))]
  · intro hblank
    exact hne ' ' ' ' (List.mem_of_mem_head? hblank) (hallowed ' ' (by decide)) rfl

theorem append {text text' : String} (h : IsArgument text) (hne : text.toList ≠ [])
    (h' : (Place.code 0).Leads text'.toList (Place.code 0)) : IsArgument (text ++ text') := by
  constructor
  · rw [String.toList_append]
    exact h.leads.append h'
  · obtain ⟨c, rest, htext⟩ := List.exists_cons_of_ne_nil hne
    simpa [htext] using h.begins

/-- A literal with its length is one argument, whatever its body means. -/
theorem sized {body : String} (h : (Place.literal 1).Leads body.toList (Place.literal 1)) :
    IsArgument (CString.sized body) := by
  have hname : (Place.code 0).Leads ['S', 'L'] (Place.code 0) :=
    Place.leads_of_plain (List.all_eq_true.1 (by decide))
  have hparen : (Place.code 0).Leads ['('] (Place.code 1) := .single rfl rfl
  have hopens : (Place.code 1).Leads ['\x22'] (Place.literal 1) := .single rfl rfl
  have hcloses : (Place.literal 1).Leads ['\x22'] (Place.code 1) := .single rfl rfl
  have hend : (Place.code 1).Leads [')'] (Place.code 0) := .single rfl rfl
  have htext : (CString.sized body).toList =
      ['S', 'L'] ++ (['('] ++ (['\x22'] ++ (body.toList ++ (['\x22'] ++ [')'])))) := by
    simp [CString.sized]
  constructor
  · rw [htext]
    exact hname.append (hparen.append (hopens.append (h.append (hcloses.append hend))))
  · simp [CString.sized]

end IsArgument

/-- A part without the blanks before it. -/
def trimBlanks (part : List Char) : List Char := part.dropWhile (· = ' ')

theorem trimBlanks_of_begins {part : List Char} (h : part.head? ≠ some ' ') :
    trimBlanks part = part := by
  cases part with
  | nil => rfl
  | cons c rest => simp_all [trimBlanks]

/-- The blank behind a separator does not count. -/
theorem split_separator {argument : String} (h : IsArgument argument) (rest : List Char) :
    ((Place.code 0).split (argument.toList ++ ',' :: ' ' :: rest)).map trimBlanks =
      argument.toList :: ((Place.code 0).split rest).map trimBlanks := by
  have hcomma : (Place.code 0).split (',' :: ' ' :: rest) =
      [] :: (Place.code 0).split (' ' :: rest) := by
    rw [Place.split, if_pos (by decide)]
  have hblank : ((Place.code 0).split (' ' :: rest)).map trimBlanks =
      ((Place.code 0).split rest).map trimBlanks := by
    have hleads : (Place.code 0).Leads [' '] (Place.code 0) := .single rfl rfl
    have hsplit := hleads rest
    rw [List.singleton_append] at hsplit
    rw [hsplit]
    cases (Place.code 0).split rest <;> simp [trimBlanks]
  calc ((Place.code 0).split (argument.toList ++ ',' :: ' ' :: rest)).map trimBlanks
      = (argument.toList :: (Place.code 0).split (' ' :: rest)).map trimBlanks := by
        rw [h.leads, hcomma, List.modifyHead_cons, List.append_nil]
    _ = argument.toList :: ((Place.code 0).split rest).map trimBlanks := by
        rw [List.map_cons, hblank, trimBlanks_of_begins h.begins]

/-- Splitting undoes joining. -/
theorem split_intercalate {arguments : List String} (hne : arguments ≠ [])
    (h : ∀ argument ∈ arguments, IsArgument argument) :
    ((Place.code 0).split (", ".intercalate arguments).toList).map trimBlanks =
      arguments.map String.toList := by
  rw [String.toList_intercalate]
  induction arguments with
  | nil => exact absurd rfl hne
  | cons argument rest ih =>
      have hargument := h argument List.mem_cons_self
      cases rest with
      | nil =>
          have hsplit := hargument.leads []
          simp only [List.append_nil] at hsplit
          simp [hsplit, Place.split, trimBlanks_of_begins hargument.begins]
      | cons other others =>
          have hrest := ih (by simp) fun a ha => h a (List.mem_cons_of_mem argument ha)
          rw [List.map_cons, List.map_cons, List.intercalate_cons_cons]
          change ((Place.code 0).split (argument.toList ++ [',', ' '] ++ _)).map trimBlanks = _
          rw [List.append_assoc, List.cons_append, List.cons_append, List.nil_append,
            split_separator hargument]
          exact congrArg (argument.toList :: ·) hrest

/-- Reads the text of a call: the name before the first parenthesis, and the arguments between
it and the last. -/
def readCall (text : String) : Option (String × List String) :=
  let name := text.toList.takeWhile (· ≠ '(')
  match text.toList.dropWhile (· ≠ '(') with
  | '(' :: inner =>
      if inner.getLast? = some ')' then
        some (String.ofList name,
          (((Place.code 0).split inner.dropLast).map trimBlanks).map String.ofList)
      else none
  | _ => none

theorem Container.function_no_parenthesis (container : Container) :
    ∀ c ∈ container.function.toList, decide (c ≠ '(') = true := by
  apply List.all_eq_true.1
  cases container <;> simp only [function] <;> decide

/-- A call is read back as its function and its arguments. -/
theorem RuntimeCall.readCall_render {call : RuntimeCall}
    (h : ∀ argument ∈ call.arguments, IsArgument argument) :
    readCall call.render = some (call.container.function, call.arguments) := by
  have htext : call.render.toList = call.container.function.toList ++
      '(' :: ((", ".intercalate call.arguments).toList ++ [')']) := by
    simp [render]
  have hname := call.container.function_no_parenthesis
  have hne : call.arguments ≠ [] := by simp [arguments]
  have hsplit := split_intercalate hne h
  generalize (", ".intercalate call.arguments).toList = inner at htext hsplit
  unfold readCall
  simp only [htext, List.takeWhile_append_of_pos hname, List.dropWhile_append_of_pos hname]
  simp [hsplit]

end AppendLowering
