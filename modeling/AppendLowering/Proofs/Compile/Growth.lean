import AppendLowering.Compile.Context
import AppendLowering.Proofs.Symbol.Undo

/-!
# Reachable and grown contexts

A context is reachable when the operations on symbols, code and headers lead
to it, in any order and with any marks. Growth is the part of them that only
adds: temporaries, lines of code and headers. Whatever has grown out of a
reachable context can be cut back to it, part by part, and without a fault.
-/

namespace AppendLowering.Context

/-- The contexts that the operations on a context lead to. Marks need not have been taken
from the context that they are applied to. -/
inductive Reachable : Context → Prop
  | start (config : Config) (vs : List Variable) : Reachable (ofSymbols config (.ofList vs))
  | declare {c} (h : Reachable c) (v : Variable) :
      Reachable { c with symbols := c.symbols.declare v }
  | temporary {c} (h : Reachable c) (type : DataType) (span : Span) :
      Reachable { c with symbols := (c.symbols.freshTemporary type span).2 }
  | output {c} (h : Reachable c) (text : String) :
      Reachable { c with code := c.code.writeLine text }
  | header {c} (h : Reachable c) (header : Header) :
      Reachable { c with headers := c.headers.add header }
  | rollbackSymbols {c} (h : Reachable c) (mark : SymbolTable.Mark) :
      Reachable { c with symbols := c.symbols.rollback mark }
  | rollbackCode {c code} (h : Reachable c) (mark : Nat) (hcode : c.code.rollback mark = .ok code) :
      Reachable { c with code }
  | truncateHeaders {c} (h : Reachable c) (length : Nat) :
      Reachable { c with headers := c.headers.take length }

theorem Reachable.wellFormed {c : Context} (h : c.Reachable) : c.symbols.WellFormed := by
  induction h with
  | start config vs => exact .ofList vs
  | declare _ v ih => exact ih.declare v
  | temporary _ type span ih => exact ih.freshTemporary type span
  | output _ _ ih => exact ih
  | header _ _ ih => exact ih
  | rollbackSymbols _ mark ih => exact ih.rollback mark
  | rollbackCode _ _ _ ih => exact ih
  | truncateHeaders _ _ ih => exact ih

/-- Whatever was done to a table, a context can be made of it. -/
theorem Reachable.ofSymbols {symbols : SymbolTable} (h : symbols.Reachable) (config : Config) :
    (Context.ofSymbols config symbols).Reachable := by
  induction h with
  | empty => exact .start config []
  | declare _ v ih => exact ih.declare v
  | temporary _ type span ih => exact ih.temporary type span
  | rollback _ mark ih => exact ih.rollbackSymbols mark

/-- What a context becomes by declaring temporaries, emitting lines and adding headers. -/
inductive Grows (c : Context) : Context → Prop
  | refl : Grows c c
  | temporary {d} (h : Grows c d) (type : DataType) (span : Span) :
      Grows c { d with symbols := (d.symbols.freshTemporary type span).2 }
  | output {d} (h : Grows c d) (text : String) : Grows c { d with code := d.code.writeLine text }
  | header {d} (h : Grows c d) (header : Header) :
      Grows c { d with headers := d.headers.add header }

namespace Grows

variable {c d e : Context}

theorem trans (first : c.Grows d) (second : d.Grows e) : c.Grows e := by
  induction second with
  | refl => exact first
  | temporary _ type span ih => exact ih.temporary type span
  | output _ text ih => exact ih.output text
  | header _ header ih => exact ih.header header

theorem write (c : Context) (line : Line) : c.Grows (c.write line) :=
  refl.output line.render

theorem initTemporary (c : Context) (span : Span) : c.Grows (c.initTemporary span).2 :=
  (refl.temporary .dynamic span).output _

theorem writeCall (c : Context) (call : RuntimeCall) : c.Grows (c.writeCall call) :=
  (refl.header call.container.header).output _

theorem reachable (h : c.Grows d) (hc : c.Reachable) : d.Reachable := by
  induction h with
  | refl => exact hc
  | temporary _ type span ih => exact ih.temporary type span
  | output _ text ih => exact ih.output text
  | header _ header ih => exact ih.header header

theorem config_eq (h : c.Grows d) : d.config = c.config := by
  induction h with
  | refl => rfl
  | temporary _ _ _ ih => exact ih
  | output _ _ ih => exact ih
  | header _ _ ih => exact ih

theorem symbols (h : c.Grows d) : c.symbols.Extends d.symbols := by
  induction h with
  | refl => exact .refl _
  | temporary _ type span ih => exact ih.trans (.freshTemporary _ type span)
  | output _ _ ih => exact ih
  | header _ _ ih => exact ih

theorem code (h : c.Grows d) : ∃ written, d.code.text = c.code.text ++ written := by
  induction h with
  | refl => exact ⟨"", by simp⟩
  | temporary _ _ _ ih => exact ih
  | output _ text ih =>
      obtain ⟨written, hwritten⟩ := ih
      exact ⟨written ++ text ++ "\n", by simp [CodeBuffer.writeLine, hwritten, String.append_assoc]⟩
  | header _ _ ih => exact ih

theorem headers (h : c.Grows d) : ∃ added, d.headers = c.headers ++ added := by
  induction h with
  | refl => exact ⟨[], by simp⟩
  | temporary _ _ _ ih => exact ih
  | output _ _ ih => exact ih
  | header _ header ih =>
      obtain ⟨added, hadded⟩ := ih
      unfold Headers.add
      split
      · exact ⟨added, hadded⟩
      · exact ⟨added ++ [header], by simp [hadded]⟩

/-- Going back to the mark of a context undoes all growth since, and never cuts a character. -/
theorem rollback_mark (h : c.Grows d) (hc : c.symbols.WellFormed) : d.rollback c.mark = .ok c := by
  obtain ⟨written, hwritten⟩ := h.code
  obtain ⟨added, hadded⟩ := h.headers
  have hcode : d.code.rollback c.code.mark = .ok c.code := by
    rw [show d.code = ⟨c.code.text ++ written⟩ from congrArg CodeBuffer.mk hwritten]
    exact CodeBuffer.rollback_mark c.code written
  have hsymbols : d.symbols.rollback c.symbols.mark = c.symbols := h.symbols.rollback_mark hc
  have hheaders : d.headers.take c.headers.length = c.headers := by rw [hadded, List.take_left]
  simp only [rollback, mark, hcode, hsymbols, hheaders, h.config_eq]
  rfl

end Grows

end AppendLowering.Context
