import AppendLowering.Proofs.Compile.Reads
import AppendLowering.Proofs.Execution.Simulation

/-!
# What becomes of string literals

A string literal can be an index, an item of an array literal, or the assigned
value itself. The first two are passed with their lengths and arrive with all
their bytes. The third is stored as a C string, which ends at its first byte
zero.
-/

namespace AppendLowering

/-- The part of an expression at a path of item numbers. -/
def Expr.at? : List Nat → Expr → Option Expr
  | [], expr => some expr
  | i :: path, .array items _ => items[i]?.bind (Expr.at? path)
  | _ :: _, _ => none

/-- The part of a value at a path of item numbers. -/
def RuntimeValue.at? : List Nat → RuntimeValue → Option RuntimeValue
  | [], value => some value
  | i :: path, .array items => items[i]?.bind (RuntimeValue.at? path)
  | _ :: _, _ => none

theorem Expr.evalAll_eq_map (memory : Memory) (items : List Expr) :
    Expr.evalAll memory items = items.map (Expr.eval memory) := by
  induction items with
  | nil => rfl
  | cons item rest ih => rw [Expr.evalAll, ih, List.map_cons]

/-- The value of a part is that part of the value. -/
theorem Expr.at?_eval (memory : Memory) {path : List Nat} {expr part : Expr}
    (h : expr.at? path = some part) :
    (expr.eval memory).at? path = some (part.eval memory) := by
  induction path generalizing expr with
  | nil =>
      cases h
      rfl
  | cons i path ih =>
      cases expr with
      | literal value span => cases h
      | var name span => cases h
      | array items span =>
          obtain ⟨item, hitem, hpart⟩ := Option.bind_eq_some_iff.mp h
          rw [Expr.eval, Expr.evalAll_eq_map, RuntimeValue.at?, List.getElem?_map, hitem]
          exact ih hpart

/-- The bytes of a text that a C string keeps. -/
def CString.terminated (text : String) : List UInt8 := (utf8Bytes text).takeWhile (· ≠ 0)

theorem CString.zero_mem_utf8Bytes {text : String} (h : Char.ofNat 0 ∈ text.toList) :
    0 ∈ utf8Bytes text := by
  rw [utf8Bytes_eq_flatMap, List.mem_flatMap]
  exact ⟨Char.ofNat 0, h, by decide⟩

theorem CString.terminated_eq_iff (text : String) :
    terminated text = utf8Bytes text ↔ Char.ofNat 0 ∉ text.toList := by
  rw [terminated, List.takeWhile_eq_self_iff]
  constructor
  · intro hkept hmem
    exact absurd rfl (of_decide_eq_true (hkept 0 (zero_mem_utf8Bytes hmem)))
  · intro hmem byte hbyte
    exact decide_eq_true fun heq => zero_notMem_utf8Bytes hmem (heq ▸ hbyte)

/-- What the holder of an assigned value is left with. -/
def Expr.stored (memory : Memory) : Expr → RuntimeValue
  | .literal (.string text) _ => .string (CString.terminated text)
  | value => value.eval memory

section Stored

variable {readDouble : String → Option Double} {memory : Memory} {holder : String}

theorem execute_store_text (hholder : isIdentifier holder = true) (text : String) :
    execute readDouble memory (Line.store holder (.text (CString.escape text))).render =
      some (Function.update memory holder (.string (CString.terminated text))) := by
  have hread := (CString.escape_takes text).read_quoted [',', ' ', '1']
  refine execute_line .set .terminated rfl rfl hholder ?_
  simp [OperandForm.read, hread, CString.terminated]

theorem Expr.Holds.stores_text {text : String} {place : Span} {c d : Context} {lines : List Line}
    (h : (Expr.literal (.string text) place).Holds c holder lines d) :
    ∃ final, run readDouble (lines.map Line.render) memory = some final ∧
      final holder = .string (CString.terminated text) := by
  cases h with
  | held hvalue hoperand =>
      cases hvalue
      cases hoperand
  | boxed hvalue hoperand hstart =>
      cases hvalue
      cases hoperand
      obtain ⟨hidentifier, -⟩ := Context.fresh_of_initTemporary hstart
      let started := Function.update memory holder .null
      let final := Function.update started holder (.string (CString.terminated text))
      refine ⟨final, ?_, Function.update_self ..⟩
      calc run readDouble _ memory
        _ = run readDouble _ started := run_cons (execute_fresh hidentifier) _
        _ = run readDouble [] final := run_cons (execute_store_text hidentifier text) []
        _ = some final := rfl

/-- The lines of an assigned value, be it a string or not. -/
theorem Expr.Holds.stores {value : Expr} {c d : Context} {lines : List Line}
    (h : value.Holds c holder lines d) (hc : c.Reachable)
    (hreads : ∀ read ∈ value.reads, c.Legible readDouble memory read.1)
    (hdoubles : ∀ x ∈ value.doubles, readDouble (Double.codeLayout.render x) = some x.written) :
    ∃ final, run readDouble (lines.map Line.render) memory = some final ∧
      final holder = value.stored memory := by
  by_cases hstring : ∃ text place, value = .literal (.string text) place
  · obtain ⟨text, place, rfl⟩ := hstring
    exact h.stores_text
  · have hother : value.stored memory = value.eval memory := by
      unfold Expr.stored
      split
      · next text place => exact absurd ⟨text, place, rfl⟩ hstring
      · rfl
    obtain ⟨final, hrun, hfinal, -⟩ := h.runs hc hreads hdoubles fun text place heq =>
      absurd ⟨text, place, heq⟩ hstring
    exact ⟨final, hrun, hfinal.trans hother.symm⟩

end Stored

theorem RuntimeCall.Lowers.walk {c : Context} {target : Target} {value : Expr} {call : RuntimeCall}
    (h : call.Lowers c target value)
    (hnames : ∀ index ∈ target.indexes, ∀ read ∈ index.reads, isIdentifier read.1 = true) :
    ∃ found, AppendLowering.walk call.chain.keys.toList call.chain.arguments =
        some { indexes := found, slots := call.chain.slots, keys := [], arguments := [] } ∧
      target.indexes.map Expr.index? = found.map some := by
  obtain ⟨passed, hpassed, hchain⟩ := h.chain
  obtain ⟨found, hwalk, hfound⟩ := walk_passed hpassed hnames
  refine ⟨found, ?_, hfound⟩
  rw [hchain, KeyChain.keys_ofList, KeyChain.arguments_ofList, KeyChain.slots_ofList]
  exact hwalk

theorem Acceptable.compiles {ρ : Type} {s : CompileState ρ} {target : Target} {value : Expr}
    (h : Acceptable s.context target value) (hs : s.context.Reachable) (span : Span) :
    ∃ call t, compileAppend Expr.compile target value span s = .ok call t := by
  have hverdict := compileAppend_verdict target value span hs
    (fun index hmem =>
      Expr.settled_of_faultless ((Expr.isKey_iff index span).mpr (h.indexes index hmem)).1)
    (fun read hread => Context.settled_of_readable
      ((Context.unreadable?_eq_none_iff read.1).mpr (h.value read hread)))
  rwa [(Target.blamed?_eq_none_iff target value span).mpr h] at hverdict

variable {readDouble : String → Option Double}

/-- An acceptable append is compiled to lines that prepare the value, and the call. The string
literals in array literals of the value, at any depth, are strings of the same bytes in what the
lines leave in the holder, and those among the indexes are found with the same bytes by the walk
over the call. But if the value is itself a string literal, the holder has only the bytes before
the first zero, which are all of them exactly if the character zero does not occur. -/
theorem compileAppend_strings {ρ : Type} {s : CompileState ρ} (hs : s.context.Reachable)
    (environment : Environment s.context) {target : Target} {value : Expr} {span : Span}
    (haccepted : Acceptable s.context target value)
    (hindexes : ∀ index ∈ target.indexes, ∀ read ∈ index.reads, isIdentifier read.1 = true)
    (hvalue : ∀ read ∈ value.reads, isIdentifier read.1 = true)
    (hdoubles : value.DoublesRead readDouble s.context) :
    ∃ call t added final found,
      compileAppend Expr.compile target value span s = .ok call t ∧
      t.context.code.text = s.context.code.text ++ added ++ call.render ++ ";\n" ∧
      run readDouble (Text.linesOf added) environment.contents = some final ∧
      (∀ text place, value = .literal (.string text) place →
        final call.holder = .string ((CString.utf8Bytes text).takeWhile (· ≠ 0)) ∧
        (final call.holder = .string (CString.utf8Bytes text) ↔ Char.ofNat 0 ∉ text.toList)) ∧
      (∀ path text place, path ≠ [] → value.at? path = some (.literal (.string text) place) →
        (final call.holder).at? path = some (.string (CString.utf8Bytes text))) ∧
      walk call.chain.keys.toList call.chain.arguments =
        some { indexes := found, slots := call.chain.slots, keys := [], arguments := [] } ∧
      ∀ (i : Nat) text place, target.indexes[i]? = some (.literal (.string text) place) →
        found[i]? = some (.text (CString.utf8Bytes text)) := by
  obtain ⟨call, t, hcompiled⟩ := haccepted.compiles hs span
  obtain ⟨lines, d, hlines, hcontext⟩ := accepted_of_ok hs.wellFormed hcompiled
  obtain ⟨found, hwalk, hfound⟩ :=
    (compileAppend_returns target value span hs s call t .refl hcompiled).walk hindexes
  have hlegible : ∀ read ∈ value.reads,
      s.context.Legible readDouble environment.contents read.1 := fun read hread =>
    environment.legible (hvalue read hread) (haccepted.value read hread) (hdoubles.name read hread)
  obtain ⟨final, hrun, hfinal⟩ := hlines.value.stores hs hlegible hdoubles.literal
  have hunbroken := hlines.value.unbroken hs fun read hread =>
    .of_chars (by decide) (isNameChar_of_identifier (hvalue read hread))
  refine ⟨call, t, Line.code lines, final, found, hcompiled, ?_, ?_, ?_, ?_, hwalk, ?_⟩
  · rw [hcontext, (Context.Emits.writeCall d call).code, hlines.value.emits.code]
    simp [Line.code, Line.render, String.append_assoc]
  · rw [Line.linesOf_code hunbroken, hrun]
  · rintro text place rfl
    rw [hfinal]
    refine ⟨rfl, ?_⟩
    rw [Expr.stored, RuntimeValue.string.injEq]
    exact CString.terminated_eq_iff text
  · intro path text place hpath hpart
    have hstored : value.stored environment.contents = value.eval environment.contents := by
      unfold Expr.stored
      split
      · obtain ⟨i, path, rfl⟩ := List.exists_cons_of_ne_nil hpath
        cases hpart
      · rfl
    rw [hfinal, hstored, Expr.at?_eval environment.contents hpart]
    rfl
  · intro i text place hindex
    have hsame := congrArg (·[i]?) hfound
    simpa [hindex, Expr.index?] using hsame.symm

def receiverEnvironment : Environment receiverContext where
  contents _ := .null
  fits name v hv _ := by
    have hmem := SymbolTable.mem_of_lookup hv
    rw [receiverContext, Context.ofSymbols, SymbolTable.declared_ofList, List.mem_singleton] at hmem
    rw [hmem]
    rfl

/-- A string with a zero in an array literal that is in another one. -/
def nestedString : Expr :=
  .array [.var "obj" .synthetic,
    .array [.literal (.string (String.ofList ['a', Char.ofNat 0, 'b'])) .synthetic] .synthetic]
    .synthetic

theorem compileAppend_strings_nested :
    ∃ (call : RuntimeCall) (t : CompileState Unit) (added : String) (final : Memory)
      (found : List RuntimeIndex),
      compileAppend Expr.compile awkwardTarget nestedString .synthetic ⟨receiverContext, [], ()⟩ =
        .ok call t ∧
      t.context.code.text = receiverContext.code.text ++ added ++ call.render ++ ";\n" ∧
      run (fun _ => none) (Text.linesOf added) receiverEnvironment.contents = some final ∧
      (final call.holder).at? [1, 0] = some (.string [97, 0, 98]) ∧
      found[0]? = some (.text [44, 34, 41, 0, 55, 92, 195, 169]) := by
  have hstart : receiverContext.Reachable := .start _ _
  have hreads : ∀ read ∈ nestedString.reads, read.1 = "obj" := by
    simp [nestedString, Expr.reads, Expr.readsOfAll]
  have haccepted : Acceptable receiverContext awkwardTarget nestedString :=
    (Target.blamed?_eq_none_iff _ _ .synthetic).mp (by decide +kernel)
  have hdoubles : nestedString.DoublesRead (fun _ => none) receiverContext := by
    refine ⟨?_, fun _ _ _ => rfl⟩
    simp [nestedString, Expr.doubles, Expr.doublesOfAll]
  obtain ⟨call, t, added, final, found, hcompiled, hcode, hrun, -, hitem, -, hindex⟩ :=
    @compileAppend_strings (fun _ => none) Unit ⟨receiverContext, [], ()⟩ hstart receiverEnvironment
      awkwardTarget nestedString .synthetic haccepted (by decide +kernel)
      (fun read hread => hreads read hread ▸ by decide +kernel) hdoubles
  refine ⟨call, t, added, final, found, hcompiled, hcode, hrun, ?_, ?_⟩
  · exact (hitem [1, 0] _ _ (by simp) rfl).trans (congrArg _ (congrArg _ (by decide +kernel)))
  · exact (hindex 0 _ _ rfl).trans (congrArg _ (congrArg _ (by decide +kernel)))

/-- Of the three characters of an assigned string, the second a zero, only the first is held. -/
theorem holdValue_cuts_string :
    ∃ (holder : String) (t : CompileState Unit) (lines : List Line) (final : Memory),
      holdValue Expr.compile
        (.literal (.string (String.ofList ['a', Char.ofNat 0, 'b'])) .synthetic)
        ⟨receiverContext, [], ()⟩ = .ok holder t ∧
      t.context.code.text = receiverContext.code.text ++ Line.code lines ∧
      run (fun _ => none) (lines.map Line.render) receiverEnvironment.contents = some final ∧
      final holder = .string [97] ∧
      CString.utf8Bytes (String.ofList ['a', Char.ofNat 0, 'b']) = [97, 0, 98] := by
  let value : Expr := .literal (.string (String.ofList ['a', Char.ofNat 0, 'b'])) .synthetic
  have hstart : receiverContext.Reachable := .start _ _
  obtain ⟨holder, t, hcompiled⟩ : ∃ (holder : String) (t : CompileState Unit),
      holdValue Expr.compile value ⟨receiverContext, [], ()⟩ = .ok holder t :=
    holdValue_settles value (by simp [value, Expr.Settled, Expr.reads]) hstart _ .refl
  obtain ⟨lines, hlines⟩ := holds_of_ok hcompiled
  obtain ⟨final, hrun, hfinal⟩ := hlines.stores_text
  refine ⟨holder, t, lines, final, hcompiled, hlines.emits.code, hrun, ?_, by decide +kernel⟩
  exact hfinal.trans (congrArg _ (by decide +kernel))

end AppendLowering
