import AppendLowering.Proofs.Code.Printable
import AppendLowering.Proofs.Compile.Emission

/-!
# Emitted lines as lines of text

Provided that the names in it have no line feeds, emitted code is read back line
by line: each line that was emitted is one line of the text. The lines that
initialize a temporary are told from all others by their first characters.
-/

namespace AppendLowering

open Text (Unbroken)

/-- The lines of a text. -/
def Text.linesOf (text : String) : List String := (Text.lines text.toList).map String.ofList

/-- Texts that are written line by line are found again. -/
theorem Text.linesOf_join {texts : List String}
    (h : ∀ text ∈ texts, Unbroken text ∧ text.toList.getLast? ≠ some '\r') :
    Text.linesOf (String.join (texts.map (· ++ "\n"))) = texts := by
  have htext : (String.join (texts.map (· ++ "\n"))).toList =
      (texts.map String.toList).flatMap (· ++ ['\n']) := by
    simp [List.flatMap_map, String.toList_join]
  have hwritten : ∀ written ∈ texts.map String.toList,
      '\n' ∉ written ∧ written.getLast? ≠ some '\r' := by
    intro written hmem
    obtain ⟨text, htext, rfl⟩ := List.mem_map.mp hmem
    exact h text htext
  rw [Text.linesOf, htext, Text.lines_flatMap hwritten]
  simp

theorem unbroken_temporaryName (number : Nat) : Unbroken (SymbolTable.temporaryName number) :=
  Unbroken.append (by decide) (Printable.digits number).unbroken

theorem unbroken_sized {body : String} (h : Unbroken body) : Unbroken (CString.sized body) :=
  (Unbroken.append (by decide) h).append (by decide)

namespace Line

/-- The function or macro that a line calls. -/
def function : Line → String
  | .fresh _ => "ZEPHIR_INIT_VAR"
  | .initArray .. => "array_init_size"
  | .store _ (.long _) => "ZVAL_LONG"
  | .store _ (.double _) => "ZVAL_DOUBLE"
  | .store _ (.bool _) => "ZVAL_BOOL"
  | .store _ .null => "ZVAL_NULL"
  | .store _ (.text _) => "ZVAL_STRING"
  | .push _ (.immediate (.long _)) => "add_next_index_long"
  | .push _ (.immediate (.double _)) => "add_next_index_double"
  | .push _ (.immediate (.bool _)) => "add_next_index_bool"
  | .push _ (.immediate .null) => "add_next_index_null"
  | .push _ (.immediate (.text _)) => "add_next_index_stringl"
  | .push _ (.held _) => "zephir_array_fast_append"
  | .call c => c.container.function

/-- The arguments of the call. -/
def arguments : Line → List String
  | .fresh holder => [holder]
  | .initArray holder size => [holder, Nat.repr size]
  | .store holder (.long code) => [holder, code]
  | .store holder (.double code) => [holder, code]
  | .store holder (.bool code) => [holder, code]
  | .store holder .null => [holder]
  | .store holder (.text body) => [holder, "\"" ++ body ++ "\"", "1"]
  | .push holder (.immediate (.long code)) => [holder, code]
  | .push holder (.immediate (.double code)) => [holder, code]
  | .push holder (.immediate (.bool code)) => [holder, code]
  | .push holder (.immediate .null) => [holder]
  | .push holder (.immediate (.text body)) => [holder, CString.sized body, "1"]
  | .push holder (.held name) => [holder, name]
  | .call c => c.arguments

/-- Every line is one call. -/
theorem render_eq (line : Line) : line.render = statement line.function line.arguments := by
  cases line with
  | fresh holder => rfl
  | initArray holder size => rfl
  | store holder value => cases value <;> rfl
  | push holder item =>
      cases item with
      | held name => rfl
      | immediate value => cases value <;> rfl
  | call c =>
      have hend : ")" ++ ";" = ");" := by decide
      simp only [render, RuntimeCall.render, statement, function, arguments,
        String.append_assoc, hend]

theorem function_unbroken (line : Line) : Unbroken line.function := by
  unfold function
  split
  case h_14 c => cases c.container <;> simp only [Container.function] <;> decide
  all_goals decide

theorem render_unbroken {line : Line} (h : ∀ argument ∈ line.arguments, Unbroken argument) :
    Unbroken line.render := by
  rw [render_eq]
  exact ((line.function_unbroken.append (by decide)).append (.intercalate (by decide) h)).append
    (by decide)

theorem getLast?_render (line : Line) : line.render.toList.getLast? = some ';' := by
  simp only [render_eq, statement, String.toList_append, List.getLast?_append]
  rfl

/-- Only a line that initializes a temporary begins like one. -/
theorem isPrefixOf_render (line : Line) :
    "ZEPHIR_INIT_VAR(".toList.isPrefixOf line.render.toList = line.initialized?.isSome := by
  simp only [render_eq, statement, String.toList_append, List.append_assoc]
  unfold function
  split
  case h_14 c => cases c.container <;> simp only [Container.function] <;> rfl
  all_goals rfl

theorem linesOf_code {lines : List Line} (h : ∀ line ∈ lines, Unbroken line.render) :
    Text.linesOf (code lines) = lines.map render := by
  have htexts : ∀ text ∈ lines.map render, Unbroken text ∧ text.toList.getLast? ≠ some '\r' := by
    intro text hmem
    obtain ⟨line, hline, rfl⟩ := List.mem_map.mp hmem
    exact ⟨h line hline, by simp [getLast?_render]⟩
  have hjoin := Text.linesOf_join htexts
  rwa [List.map_map] at hjoin

/-- The lines that begin like an initialization tell which temporaries are initialized. -/
theorem filter_linesOf_code {lines : List Line} (h : ∀ line ∈ lines, Unbroken line.render) :
    (Text.linesOf (code lines)).filter
        (fun text => "ZEPHIR_INIT_VAR(".toList.isPrefixOf text.toList) =
      (lines.filterMap initialized?).map fun holder => "ZEPHIR_INIT_VAR(" ++ holder ++ ");" := by
  have hbegins : (fun text : String => "ZEPHIR_INIT_VAR(".toList.isPrefixOf text.toList) ∘ render =
      fun line => line.initialized?.isSome := funext isPrefixOf_render
  have hfresh (holder : String) : (fresh holder).render = "ZEPHIR_INIT_VAR(" ++ holder ++ ");" := by
    have hopen : "ZEPHIR_INIT_VAR" ++ "(" = "ZEPHIR_INIT_VAR(" := by decide
    simp [render, statement, hopen]
  rw [linesOf_code h, List.filter_map, hbegins]
  clear h
  induction lines with
  | nil => rfl
  | cons line rest ih =>
      cases line with
      | fresh holder => exact congrArg₂ List.cons (hfresh holder) ih
      | initArray | store | push | call => exact ih

end Line

end AppendLowering
