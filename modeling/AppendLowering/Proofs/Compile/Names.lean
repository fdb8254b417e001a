import AppendLowering.Proofs.Append.Reader
import AppendLowering.Proofs.Code.Line
import AppendLowering.Proofs.Compile.Verdict

/-!
# Names in emitted code

Whatever is compiled mentions bound names only. The lines that are emitted are
built from these names, from the names of temporaries and from printable code.
They stay lines of their own as long as the names have no line feeds.
-/

namespace AppendLowering

open Text (Unbroken)

/-- The variables that an assignment mentions: its container, its indexes and its value. -/
def Assignment.mentions (assignment : Assignment) : List String :=
  assignment.target.container.base?.toList ++
    (assignment.target.indexes ++ [assignment.value]).flatMap fun expr => expr.reads.map Prod.fst

def Statement.mentions (statement : Statement) : List String :=
  statement.assignments.flatMap Assignment.mentions

section Bound

variable {c d : Context} {name : String}

theorem Context.Grows.contains (h : c.Grows d) (hname : c.symbols.contains name = true) :
    d.symbols.contains name = true := by
  obtain ⟨added, hadded, -⟩ := h.symbols.names
  obtain ⟨entry, hmem, hentry⟩ := List.any_eq_true.mp hname
  exact List.any_eq_true.mpr ⟨entry, hadded ▸ List.mem_append_left added hmem, hentry⟩

mutual

theorem Expr.Compiles.bound (expr : Expr) {c d : Context} {value : Resolved} {lines : List Line}
    (h : expr.Compiles c value lines d) (hc : c.Reachable) :
    ∀ read ∈ expr.reads, d.symbols.contains read.1 = true := by
  cases expr with
  | literal literal span => simp [Expr.reads]
  | var name span =>
      cases h with
      | var hread =>
          have hfound := Context.lookup_of_readVariable hread
          simpa [Expr.reads] using SymbolTable.contains_of_lookup hfound.1
  | array items span =>
      cases h with
      | array hstart hitems =>
          have hgrown := (Context.Emits.initTemporary hstart).grows
          rw [Expr.reads]
          exact hitems.bound items ((hgrown.trans (.write _ _)).reachable hc)

theorem Expr.CompilesAll.bound (items : List Expr) {holder : String} {c d : Context}
    {lines : List Line} (h : Expr.CompilesAll items holder c lines d) (hc : c.Reachable) :
    ∀ read ∈ Expr.readsOfAll items, d.symbols.contains read.1 = true := by
  cases items with
  | nil => simp [Expr.readsOfAll]
  | cons item rest =>
      cases h with
      | @cons _ _ _ _ middle _ _ _ _ lines' hitem _ hrest =>
          have hwritten := Context.Grows.write middle
          rw [Expr.readsOfAll, List.forall_mem_append]
          refine ⟨fun read hread => ?_, hrest.bound rest ?_⟩
          · exact ((hwritten _).trans (hrest.emits rest).grows).contains
              (hitem.bound item hc read hread)
          · exact ((hitem.emits item).grows.trans (hwritten _)).reachable hc

end

theorem Expr.Holds.bound {value : Expr} {holder : String} {lines : List Line}
    (h : value.Holds c holder lines d) (hc : c.Reachable) :
    ∀ read ∈ value.reads, d.symbols.contains read.1 = true := by
  cases h with
  | held hvalue _ => exact hvalue.bound value hc
  | boxed hvalue _ hstart =>
      have hgrown := (Context.Emits.initTemporary hstart).grows
      exact fun read hread =>
        (hgrown.trans (.write _ _)).contains (hvalue.bound value hc read hread)

theorem Target.Accepted.bound {assignment : Assignment} {holder : String} {lines : List Line}
    (h : assignment.target.Accepted assignment.value c holder lines d) (hc : c.Reachable) :
    ∀ name ∈ assignment.mentions, d.symbols.contains name = true := by
  have hgrown := h.value.emits.grows
  intro name hname
  rcases List.mem_append.mp hname with hbase | hother
  · exact hgrown.contains (h.base name (by simpa using hbase))
  · obtain ⟨expr, hexpr, hmem⟩ := List.mem_flatMap.mp hother
    obtain ⟨read, hread, rfl⟩ := List.mem_map.mp hmem
    rcases List.mem_append.mp hexpr with hindex | hvalue
    · obtain ⟨resolved, hcompiles⟩ := h.indexes expr hindex
      exact hgrown.contains (hcompiles.bound expr hc read hread)
    · obtain rfl := List.mem_singleton.mp hvalue
      exact h.value.bound hc read hread

theorem Assigns.bound {assignments : List Assignment} {lines : List Line}
    (h : Assigns assignments c lines d) (hc : c.Reachable) :
    ∀ assignment ∈ assignments, ∀ name ∈ assignment.mentions, d.symbols.contains name = true := by
  induction h with
  | nil c => simp
  | @cons assignment rest c d e call lines lines' haccepted _ hrest ih =>
      have hcalled := Context.Grows.writeCall d call
      refine List.forall_mem_cons.mpr ⟨fun name hname => ?_, ih ?_⟩
      · exact (hcalled.trans hrest.emits.grows).contains (haccepted.bound hc name hname)
      · exact (haccepted.value.emits.grows.trans hcalled).reachable hc

end Bound

/-- The code of the value has no line feed. -/
def Immediate.Unbroken : Immediate → Prop
  | .long code => Text.Unbroken code
  | .double code => Text.Unbroken code
  | .bool code => Text.Unbroken code
  | .null => True
  | .text body => Text.Unbroken body

def Operand.Unbroken : Operand → Prop
  | .immediate value => value.Unbroken
  | .held name => Text.Unbroken name

section Lines

variable {c d : Context} {holder : String}

theorem Line.initArray_unbroken (h : Unbroken holder) (size : Nat) :
    Unbroken (initArray holder size).render := by
  have hsize : Unbroken (Nat.repr size) := (Printable.digits size).unbroken
  exact render_unbroken (by simp [arguments, h, hsize])

theorem Line.store_unbroken (h : Unbroken holder) {value : Immediate} (hvalue : value.Unbroken) :
    Unbroken (store holder value).render := by
  apply render_unbroken
  cases value with
  | long code | double code | bool code =>
      have hcode : Unbroken code := hvalue
      simp [arguments, h, hcode]
  | null => exact List.forall_mem_singleton.mpr h
  | text body =>
      have hliteral : Unbroken ("\"" ++ body ++ "\"") :=
        (Unbroken.append (by decide) hvalue).append (by decide)
      have hcopy : Unbroken "1" := by decide
      simp [arguments, h, hliteral, hcopy]

theorem Line.push_unbroken (h : Unbroken holder) {item : Operand} (hitem : item.Unbroken) :
    Unbroken (push holder item).render := by
  apply render_unbroken
  cases item with
  | held name =>
      have hname : Unbroken name := hitem
      simp [arguments, h, hname]
  | immediate value =>
      cases value with
      | long code | double code | bool code =>
          have hcode : Unbroken code := hitem
          simp [arguments, h, hcode]
      | null => exact List.forall_mem_singleton.mpr h
      | text body =>
          have hliteral : Unbroken (CString.sized body) := unbroken_sized hitem
          have hcopy : Unbroken "1" := by decide
          simp [arguments, h, hliteral, hcopy]

theorem Variable.operand_unbroken {v : Variable} (h : Unbroken v.name) : v.operand.Unbroken := by
  unfold Variable.operand
  split <;> first | exact h | exact trivial

theorem Resolved.operand_unbroken {value : Resolved} {operand : Operand}
    (hd : d.symbols.WellFormed) (hcode : Unbroken value.code)
    (h : value.operand d = .ok operand) : operand.Unbroken := by
  unfold Resolved.operand at h
  split at h
  case h_12 =>
    cases hread : d.readVariable value.code value.span with
    | error failure => simp [hread, Except.map] at h
    | ok v =>
        obtain rfl : v.operand = operand := by simpa [hread, Except.map] using h
        exact Variable.operand_unbroken (Context.name_of_readVariable hd hread ▸ hcode)
  all_goals
    cases h
    first | exact hcode | exact trivial

theorem Context.unbroken_of_initTemporary {span : Span} (h : c.initTemporary span = (holder, d)) :
    Unbroken holder := by
  cases h
  exact unbroken_temporaryName _

theorem Line.fresh_unbroken (h : Unbroken holder) : Unbroken (fresh holder).render :=
  render_unbroken (by simpa [arguments] using h)

end Lines

mutual

theorem Expr.Compiles.unbroken (expr : Expr) {c d : Context} {value : Resolved}
    {lines : List Line} (h : expr.Compiles c value lines d) (hc : c.Reachable)
    (hreads : ∀ read ∈ expr.reads, Unbroken read.1) :
    Unbroken value.code ∧ ∀ line ∈ lines, Unbroken line.render := by
  cases expr with
  | literal literal span =>
      cases h
      exact ⟨literal.resolve_printable.unbroken, by simp⟩
  | var name span =>
      cases h with
      | var hread =>
          refine ⟨?_, by simp⟩
          simpa [Expr.reads, Context.name_of_readVariable hc.wellFormed hread] using hreads
  | array items span =>
      cases h with
      | array hstart hitems =>
          rw [Expr.reads] at hreads
          have hholder := Context.unbroken_of_initTemporary hstart
          have hgrown := (Context.Emits.initTemporary hstart).grows
          have hlines := hitems.unbroken items ((hgrown.trans (.write _ _)).reachable hc) hholder
            hreads
          refine ⟨hholder, List.forall_mem_cons.mpr ⟨Line.fresh_unbroken hholder, ?_⟩⟩
          exact List.forall_mem_cons.mpr ⟨Line.initArray_unbroken hholder _, hlines⟩

theorem Expr.CompilesAll.unbroken (items : List Expr) {holder : String} {c d : Context}
    {lines : List Line} (h : Expr.CompilesAll items holder c lines d) (hc : c.Reachable)
    (hholder : Unbroken holder) (hreads : ∀ read ∈ Expr.readsOfAll items, Unbroken read.1) :
    ∀ line ∈ lines, Unbroken line.render := by
  cases items with
  | nil =>
      cases h
      simp
  | cons item rest =>
      cases h with
      | cons hitem hoperand hrest =>
          rw [Expr.readsOfAll, List.forall_mem_append] at hreads
          have hmiddle := (hitem.emits item).grows.reachable hc
          obtain ⟨hcode, hlines⟩ := hitem.unbroken item hc hreads.1
          have hpushed := Resolved.operand_unbroken hmiddle.wellFormed hcode hoperand
          have hlines' := hrest.unbroken rest ((Context.Grows.write _ _).reachable hmiddle) hholder
            hreads.2
          rw [List.forall_mem_append, List.forall_mem_cons]
          exact ⟨hlines, Line.push_unbroken hholder hpushed, hlines'⟩

end

theorem Expr.Holds.unbroken {value : Expr} {c d : Context} {holder : String} {lines : List Line}
    (h : value.Holds c holder lines d) (hc : c.Reachable)
    (hreads : ∀ read ∈ value.reads, Unbroken read.1) :
    ∀ line ∈ lines, Unbroken line.render := by
  cases h with
  | held hvalue _ => exact (hvalue.unbroken value hc hreads).2
  | boxed hvalue hoperand hstart =>
      have hholder := Context.unbroken_of_initTemporary hstart
      have hwell := ((hvalue.emits value).grows.reachable hc).wellFormed
      obtain ⟨hcode, hlines⟩ := hvalue.unbroken value hc hreads
      have hstored := Resolved.operand_unbroken hwell hcode hoperand
      rw [List.forall_mem_append, List.forall_mem_cons, List.forall_mem_singleton]
      exact ⟨hlines, Line.fresh_unbroken hholder, Line.store_unbroken hholder hstored⟩

theorem Container.leading_unbroken {container : Container} (h : Unbroken container.name) :
    ∀ argument ∈ container.leading, Unbroken argument := by
  have hfield (field : String) : Unbroken (CString.sized (CString.escape field)) :=
    unbroken_sized (CString.escape_printable field).unbroken
  cases container with
  | var name => exact List.forall_mem_singleton.mpr (Unbroken.append (by decide) h)
  | property object field | staticProperty classEntry field =>
      exact List.forall_mem_cons.mpr ⟨h, List.forall_mem_singleton.mpr (hfield field)⟩

theorem Expr.Passed.unbroken {index : Expr} {passed : Encoding × String} (h : index.Passed passed)
    (hreads : ∀ read ∈ index.reads, Unbroken read.1) :
    Unbroken (passed.1.argument passed.2) := by
  cases h with
  | @integer _ i _ _ => exact (Printable.integer i).unbroken
  | string text _ => exact unbroken_sized (CString.escape_printable text).unbroken
  | @var encoding hencoding name span =>
      have hname : Unbroken name := hreads (name, span) (by simp [Expr.reads])
      cases encoding with
      | integer => exact hname
      | string => exact absurd rfl hencoding
      | dynamic => exact hname

theorem passed_unbroken {indexes : List Expr} {passed : List (Encoding × String)}
    (h : List.Forall₂ Expr.Passed indexes passed)
    (hreads : ∀ index ∈ indexes, ∀ read ∈ index.reads, Unbroken read.1) :
    ∀ argument ∈ (KeyChain.ofList passed).arguments, Unbroken argument := by
  rw [KeyChain.arguments_ofList]
  induction h with
  | nil => simp
  | cons hpassed _ ih =>
      rw [List.forall_mem_cons] at hreads
      rw [List.map_cons, List.forall_mem_cons]
      exact ⟨hpassed.unbroken hreads.1, ih hreads.2⟩

theorem KeyChain.keys_unbroken (chain : KeyChain) : Unbroken (CString.sized chain.keys) := by
  have hkey (encoding : Encoding) : encoding.key ≠ '\n' := by cases encoding <;> decide
  have hmarker : marker ≠ '\n' := by decide
  exact unbroken_sized (by simpa [Unbroken, keys, hmarker.symm] using fun e _ => hkey e)

/-- A call stays in a line if the names that it passes do. -/
theorem RuntimeCall.Lowers.unbroken {c : Context} {target : Target} {value : Expr}
    {call : RuntimeCall} (h : call.Lowers c target value)
    (hcontainer : Unbroken target.container.name)
    (hindexes : ∀ index ∈ target.indexes, ∀ read ∈ index.reads, Unbroken read.1)
    (hvalue : ∀ read ∈ value.reads, Unbroken read.1) : Unbroken (Line.call call).render := by
  have hholder : Unbroken call.holder := by
    rcases h.holder with ⟨number, hnumber⟩ | ⟨span, hvar⟩
    · exact hnumber ▸ unbroken_temporaryName number
    · exact hvalue (call.holder, span) (by simp [hvar, Expr.reads])
  have haddress : Unbroken call.valueArgument := by
    unfold RuntimeCall.valueArgument
    exact (Unbroken.append (by decide) hholder).append (by split <;> decide)
  have hslots : Unbroken (Nat.repr call.chain.slots) := (Printable.digits _).unbroken
  obtain ⟨passed, hpassed, hchain⟩ := h.chain
  apply Line.render_unbroken
  simp only [Line.arguments, RuntimeCall.arguments, List.forall_mem_append, List.forall_mem_cons]
  refine ⟨⟨?_, haddress, call.chain.keys_unbroken, hslots, by simp⟩, ?_⟩
  · exact h.container ▸ Container.leading_unbroken hcontainer
  · exact hchain ▸ passed_unbroken hpassed hindexes

/-- Accepted assignments emit lines that stay lines of their own. -/
theorem Assigns.unbroken {assignments : List Assignment} {c d : Context} {lines : List Line}
    (h : Assigns assignments c lines d) (hc : c.Reachable)
    (hnames : ∀ name, d.symbols.contains name = true → Unbroken name)
    (hcontainers : ∀ assignment ∈ assignments, Unbroken assignment.target.container.name) :
    ∀ line ∈ lines, Unbroken line.render := by
  induction h with
  | nil c => simp
  | @cons assignment rest c d e call lines lines' haccepted hcall hrest ih =>
      rw [List.forall_mem_cons] at hcontainers
      have hcalled := Context.Grows.writeCall d call
      have hmentions : ∀ name ∈ assignment.mentions, Unbroken name := fun name hname =>
        hnames name <| (hcalled.trans hrest.emits.grows).contains (haccepted.bound hc name hname)
      have hreads : ∀ expr ∈ assignment.target.indexes ++ [assignment.value],
          ∀ read ∈ expr.reads, Unbroken read.1 := fun expr hexpr read hread =>
        hmentions read.1 <| List.mem_append_right _ <|
          List.mem_flatMap.mpr ⟨expr, hexpr, List.mem_map_of_mem hread⟩
      rw [List.forall_mem_append, List.forall_mem_singleton] at hreads
      rw [List.forall_mem_append, List.forall_mem_cons]
      refine ⟨haccepted.value.unbroken hc hreads.2,
        hcall.unbroken hcontainers.1 hreads.1 hreads.2, ih ?_ hnames hcontainers.2⟩
      exact (haccepted.value.emits.grows.trans hcalled).reachable hc

end AppendLowering
