import AppendLowering.Append.Slot
import AppendLowering.Compile.Monad
import AppendLowering.Tree.Display

/-!
# Indexes

The indexes of a target are compiled first, one after the other, and then each
of them gets its encoding. Variables are encoded by what they are declared as.
-/

namespace AppendLowering

variable {ρ : Type}

/-- Compiles the indexes of a target; `span` is the place of the assignment. -/
def resolveIndexes (resolver : Resolver ρ) (span : Span) : List Expr → CompileM ρ (List Resolved)
  | [] => return []
  | index :: rest => do
      let value ← CompileM.withSpan span (resolver index)
      if value.type.isIndex then
        return value :: (← resolveIndexes resolver span rest)
      else
        CompileM.reject (.unsupportedIndex index.display value.type) (index.span.orElse span)

/-- The encoding of a variable that is used as an index. -/
def Variable.encoding? (v : Variable) : Option Encoding :=
  match v.type with
  | .int | .uint | .long | .ulong => some .integer
  | .string | .dynamic => some .dynamic
  | _ => none

/-- The encoding of a compiled index; `span` is the place of the assignment. -/
def Resolved.encoding (index : Resolved) (span : Span) (context : Context) :
    Except Failure Encoding := do
  let span := index.span.orElse span
  match index.type with
  | .int | .uint | .long | .ulong => return .integer
  | .string => return .string
  | .var =>
      let v ← context.readVariable index.code span
      match v.encoding? with
      | some encoding => return encoding
      | none => throw (.rejected { cause := .unsupportedVariableIndex v.name v.type, span })
  | _ => throw (.rejected { cause := .unsupportedIndex index.code index.type, span })

/-- Finds the encoding of a compiled index. -/
def classifyIndex (span : Span) (index : Resolved) : CompileM ρ Encoding := do
  let encoding ← CompileM.reading (index.encoding span)
  CompileM.record (.trace .classifier
    (index.type.display ++ " `" ++ index.code ++ "` -> " ++ encoding.name))
  return encoding

/-- Adds compiled indexes to a chain. -/
def classifyIndexes (span : Span) (chain : KeyChain) : List Resolved → CompileM ρ KeyChain
  | [] => return chain
  | index :: rest => do
      let encoding ← classifyIndex span index
      classifyIndexes span (chain.push encoding index.code) rest

end AppendLowering
