import AppendLowering.Json.Parser
import AppendLowering.Proofs.Json.Number
import AppendLowering.Proofs.Json.Token

/-!
# Reading written JSON

A value that a text can denote is read back from its compact text, unless it is nested too
deeply for the reader.
-/

namespace AppendLowering.Json

/-- The values that a text can denote: numbers are finite, whole ones have 64 bits, and no
object has a field twice. -/
inductive Writable : Json → Prop
  | null : Writable .null
  | bool (value : Bool) : Writable (.bool value)
  | int {value : Int} (h : FitsWord value) : Writable (.int value)
  | float {value : Double} (h : value.isFinite = true) : Writable (.float value)
  | string (text : String) : Writable (.string text)
  | array {items : List Json} (h : ∀ item ∈ items, Writable item) : Writable (.array items)
  | object {fields : List (String × Json)} (hnames : (fields.map Prod.fst).Nodup)
      (h : ∀ field ∈ fields, Writable field.2) : Writable (.object fields)

mutual

/-- How deeply arrays and objects are nested. -/
def depth : Json → Nat
  | .array items => itemsDepth items + 1
  | .object fields => fieldsDepth fields + 1
  | _ => 0

def itemsDepth : List Json → Nat
  | [] => 0
  | item :: rest => max item.depth (itemsDepth rest)

def fieldsDepth : List (String × Json) → Nat
  | [] => 0
  | (_, value) :: rest => max value.depth (fieldsDepth rest)

end

mutual

/-- The tokens of the compact text of a value. -/
def tokens : Json → List Token
  | .string text => [.text text]
  | .array items => .openArray :: (itemTokens items ++ [.closeArray])
  | .object fields => .openObject :: (fieldTokens fields ++ [.closeObject])
  | json => [.word json.render.toList]

def itemTokens : List Json → List Token
  | [] => []
  | [item] => item.tokens
  | item :: rest => item.tokens ++ .comma :: itemTokens rest

def fieldTokens : List (String × Json) → List Token
  | [] => []
  | [(name, value)] => .text name :: .colon :: value.tokens
  | (name, value) :: rest => .text name :: .colon :: (value.tokens ++ .comma :: fieldTokens rest)

end

/-! ### The tokens of a written value -/

open Token (Scans isWordChar)

variable {json : Json} {items : List Json} {fields : List (String × Json)}

theorem scans_word {word : List Char} (hvalue : ofWord? word = some json)
    (hchars : ∀ c ∈ word, isWordChar c = true) : Scans word [.word word] := by
  refine .word ?_ hchars
  rintro rfl
  cases hvalue

theorem scans_renderItems (h : ∀ item ∈ items, Scans item.render.toList item.tokens) :
    Scans (renderItems items).toList (itemTokens items) := by
  induction items with
  | nil => exact .nil
  | cons item rest ih =>
      rw [List.forall_mem_cons] at h
      cases rest with
      | nil => exact h.1
      | cons next rest =>
          have hrest := h.1.punctuated (c := ',') rfl (ih h.2)
          simpa [renderItems, itemTokens, String.toList_append] using hrest

theorem scans_renderFields (h : ∀ field ∈ fields, Scans field.2.render.toList field.2.tokens) :
    Scans (renderFields fields).toList (fieldTokens fields) := by
  induction fields with
  | nil => exact .nil
  | cons field rest ih =>
      obtain ⟨name, value⟩ := field
      rw [List.forall_mem_cons] at h
      have hfield := (Scans.quoted name).punctuated (c := ':') rfl h.1
      cases rest with
      | nil => simpa [renderFields, fieldTokens, String.toList_append] using hfield
      | cons next rest =>
          have hrest := hfield.punctuated (c := ',') rfl (ih h.2)
          simpa [renderFields, fieldTokens, String.toList_append] using hrest

theorem Writable.scans_render (h : json.Writable) : Scans json.render.toList json.tokens := by
  induction h with
  | null => exact .word (by decide) (List.all_eq_true.mp (by decide))
  | bool value => cases value <;> exact .word (by decide) (List.all_eq_true.mp (by decide))
  | int h => exact scans_word (ofWord?_repr h) (isWordChar_of_numeric (.integer _))
  | @float value h =>
      have htext : (Json.float value).render = Double.jsonLayout.render value := by
        rw [render, if_pos h]
      simp only [tokens, htext]
      exact scans_word (ofWord?_render _ h) (isWordChar_of_numeric (numeric_render _ h))
  | string text => exact .quoted text
  | array h ih =>
      have hitems := (Scans.nil.punctuated (c := '[') rfl (scans_renderItems ih)).punctuated
        (c := ']') rfl .nil
      simpa [render, tokens, String.toList_append] using hitems
  | object hnames h ih =>
      have hfields := (Scans.nil.punctuated (c := '\x7b') rfl (scans_renderFields ih)).punctuated
        (c := '\x7d') rfl .nil
      simpa [render, tokens, String.toList_append] using hfields

/-! ### Building values from tokens -/

/-- A value may come next. -/
def Expect.TakesValue : Expect → Prop
  | .value | .firstItem => True
  | _ => False

open Builder (depthLimit step)

/-- The tokens of the value are put together to the value, wherever it stands, unless it is
nested too deeply there. -/
def Builds (json : Json) : Prop :=
  ∀ frames expect, expect.TakesValue → frames.length ≤ depthLimit →
    json.tokens.foldlM step { frames, expect } =
      if frames.length + json.depth ≤ depthLimit then some { frames, expect := .separator json }
      else none

section Builder

variable {frames : List Frame} {expect : Expect} {token : Token}

theorem step_value (hexpect : expect.TakesValue) (htoken : token ≠ .closeArray) :
    step { frames, expect } token = Builder.beginValue frames token := by
  cases expect <;> cases token <;> first | contradiction | rfl

theorem foldlM_itemTokens (done : List Json) (expect : Expect)
    (hbuilds : ∀ item ∈ items, item.Builds) (hne : items ≠ []) (hexpect : expect.TakesValue)
    (hframes : frames.length < depthLimit) :
    (itemTokens items ++ [Token.closeArray]).foldlM step
        { frames := .items done :: frames, expect } =
      if frames.length + 1 + itemsDepth items ≤ depthLimit then
        some { frames, expect := .separator (.array (done.reverse ++ items)) }
      else none := by
  induction items generalizing done expect with
  | nil => exact absurd rfl hne
  | cons item rest ih =>
      rw [List.forall_mem_cons] at hbuilds
      have hitem := hbuilds.1 (.items done :: frames) expect hexpect hframes
      rw [List.length_cons] at hitem
      cases rest with
      | nil =>
          simp only [itemTokens, itemsDepth, List.foldlM_append, hitem, Nat.max_zero]
          split
          · simp [step]
          · rfl
      | cons next rest =>
          have hrest := ih (item :: done) .value hbuilds.2 (by simp) trivial
          have htokens : itemTokens (item :: next :: rest) ++ [Token.closeArray] =
              item.tokens ++ .comma :: (itemTokens (next :: rest) ++ [.closeArray]) := by
            simp [itemTokens]
          rw [htokens, List.foldlM_append, hitem, itemsDepth]
          by_cases hdepth : frames.length + 1 + item.depth ≤ depthLimit
          · rw [if_pos hdepth]
            refine hrest.trans (if_congr (by omega) ?_ rfl)
            simp
          · rw [if_neg hdepth, if_neg (by omega)]
            rfl

theorem setField_of_new {done : List (String × Json)} {name : String} (value : Json)
    (h : name ∉ done.map Prod.fst) :
    Builder.setField done name value = done ++ [(name, value)] := by
  refine if_neg ?_
  simpa using h

theorem foldlM_fieldTokens (done : List (String × Json)) (last : String) (expect : Expect)
    (hbuilds : ∀ field ∈ fields, field.2.Builds) (hne : fields ≠ [])
    (hexpect : expect = .firstName ∨ expect = .name)
    (hnames : ((done ++ fields).map Prod.fst).Nodup) (hframes : frames.length < depthLimit) :
    (fieldTokens fields ++ [Token.closeObject]).foldlM step
        { frames := .fields done last :: frames, expect } =
      if frames.length + 1 + fieldsDepth fields ≤ depthLimit then
        some { frames, expect := .separator (.object (done ++ fields)) }
      else none := by
  induction fields generalizing done last expect with
  | nil => exact absurd rfl hne
  | cons field rest ih =>
      obtain ⟨name, value⟩ := field
      rw [List.forall_mem_cons] at hbuilds
      have hnew : name ∉ done.map Prod.fst := by
        intro hmem
        rw [List.map_append, List.map_cons] at hnames
        exact (List.nodup_append.mp hnames).2.2 name hmem name List.mem_cons_self rfl
      have hbegin (tail : List Token) :
          (Token.text name :: .colon :: tail).foldlM step
              { frames := .fields done last :: frames, expect } =
            tail.foldlM step { frames := .fields done name :: frames, expect := .value } := by
        rcases hexpect with rfl | rfl <;> rfl
      have hvalue := hbuilds.1 (.fields done name :: frames) .value trivial hframes
      rw [List.length_cons] at hvalue
      cases rest with
      | nil =>
          have htokens : fieldTokens [(name, value)] ++ [Token.closeObject] =
              .text name :: .colon :: (value.tokens ++ [.closeObject]) := by
            simp [fieldTokens]
          rw [htokens, hbegin, List.foldlM_append, hvalue, fieldsDepth, fieldsDepth, Nat.max_zero]
          split
          · simp [step, setField_of_new value hnew]
          · rfl
      | cons next rest =>
          have hrest := ih (done ++ [(name, value)]) name .name hbuilds.2 (by simp) (.inr rfl)
            (by simpa using hnames)
          have htokens : fieldTokens ((name, value) :: next :: rest) ++ [Token.closeObject] =
              .text name :: .colon :: (value.tokens ++ .comma ::
                (fieldTokens (next :: rest) ++ [.closeObject])) := by
            simp [fieldTokens]
          rw [htokens, hbegin, List.foldlM_append, hvalue, fieldsDepth]
          by_cases hdepth : frames.length + 1 + value.depth ≤ depthLimit
          · rw [if_pos hdepth]
            have hcomma : step
                { frames := .fields done name :: frames, expect := .separator value } .comma =
                  some { frames := .fields (done ++ [(name, value)]) name :: frames
                         expect := .name } := by
              simp [step, setField_of_new value hnew]
            simp only [Option.bind_eq_bind, Option.bind_some, List.foldlM_cons, hcomma]
            refine hrest.trans (if_congr (by omega) ?_ rfl)
            simp
          · rw [if_neg hdepth, if_neg (by omega)]
            rfl

/-- A value that is a single token. -/
theorem builds_of_token (htokens : json.tokens = [token]) (hdepth : json.depth = 0)
    (hbegin : ∀ frames, Builder.beginValue frames token =
      some { frames, expect := .separator json }) : json.Builds := by
  intro frames expect hexpect hframes
  have htoken : token ≠ .closeArray := by
    rintro rfl
    cases hbegin []
  rw [htokens, hdepth, Nat.add_zero, if_pos hframes]
  simp [step_value hexpect htoken, hbegin]

theorem builds_of_word {word : List Char} (htokens : json.tokens = [.word word])
    (hdepth : json.depth = 0) (hvalue : ofWord? word = some json) : json.Builds :=
  builds_of_token htokens hdepth fun frames => by rw [Builder.beginValue, hvalue]; rfl

theorem builds_array (h : ∀ item ∈ items, item.Builds) : (Json.array items).Builds := by
  intro frames expect hexpect hframes
  have hopen : step { frames, expect } .openArray =
      Builder.enter frames (.items []) .firstItem := step_value hexpect (by simp)
  rw [tokens, depth, List.foldlM_cons, hopen, Builder.enter]
  by_cases hlt : frames.length < depthLimit
  · rw [if_pos hlt, Option.bind_eq_bind, Option.bind_some]
    cases items with
    | nil =>
        rw [if_pos (by simp only [itemsDepth]; omega)]
        rfl
    | cons item rest =>
        rw [foldlM_itemTokens [] .firstItem h (by simp) trivial hlt]
        exact if_congr (by omega) rfl rfl
  · rw [if_neg hlt, if_neg (by omega)]
    rfl

theorem builds_object (hnames : (fields.map Prod.fst).Nodup)
    (h : ∀ field ∈ fields, field.2.Builds) : (Json.object fields).Builds := by
  intro frames expect hexpect hframes
  have hopen : step { frames, expect } .openObject =
      Builder.enter frames (.fields [] "") .firstName := step_value hexpect (by simp)
  rw [tokens, depth, List.foldlM_cons, hopen, Builder.enter]
  by_cases hlt : frames.length < depthLimit
  · rw [if_pos hlt, Option.bind_eq_bind, Option.bind_some]
    cases fields with
    | nil =>
        rw [if_pos (by simp only [fieldsDepth]; omega)]
        rfl
    | cons field rest =>
        rw [foldlM_fieldTokens [] "" .firstName h (by simp) (.inl rfl) hnames hlt]
        exact if_congr (by omega) rfl rfl
  · rw [if_neg hlt, if_neg (by omega)]
    rfl

theorem Writable.builds (h : json.Writable) : json.Builds := by
  induction h with
  | null => exact builds_of_word rfl rfl rfl
  | bool value => cases value <;> exact builds_of_word rfl rfl rfl
  | int h =>
      exact builds_of_word (by simp only [tokens, render]) (by simp only [depth]) (ofWord?_repr h)
  | float h =>
      exact builds_of_word (by simp only [tokens, render, h, if_true]) (by simp only [depth])
        (ofWord?_render Double.jsonLayout h)
  | string text => exact builds_of_token rfl rfl fun _ => rfl
  | array _ ih => exact builds_array ih
  | object hnames _ ih => exact builds_object hnames ih

end Builder

/-- A value is read back from its text exactly if it is not nested too deeply. -/
theorem Writable.parse?_render (h : json.Writable) :
    parse? json.render = if json.depth ≤ depthLimit then some json else none := by
  have hbuilder := h.builds [] .value trivial (Nat.zero_le _)
  rw [List.length_nil, Nat.zero_add] at hbuilder
  simp only [parse?, h.scans_render.scan_eq, Option.bind_eq_bind, Option.bind_some, Builder.initial,
    hbuilder]
  split <;> rfl

end AppendLowering.Json
