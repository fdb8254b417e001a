import AppendLowering.Append.Holder
import AppendLowering.Append.Index

/-!
# Lowering of appends

An assignment is lowered in five stages: the container is checked, the indexes
are compiled and then encoded, the value is compiled, and the call is emitted.
A rejected assignment leaves no trace in the context.
-/

namespace AppendLowering

variable {ρ : Type}

/-- The stages that an assignment has passed. -/
inductive Stage where
  | targetValidated
  | indicesResolved
  | indicesClassified
  | rhsPrepared
  | emitted
  deriving DecidableEq, Repr

def Stage.name : Stage → String
  | .targetValidated => "TargetValidated"
  | .indicesResolved => "IndicesResolved"
  | .indicesClassified => "IndicesClassified"
  | .rhsPrepared => "RhsPrepared"
  | .emitted => "Emitted"

/-- Checks that the variable of a container is declared, has a value and has the right type. -/
def Container.validate (container : Container) (span : Span) (context : Context) :
    Except Failure Unit :=
  match container.base? with
  | none => return ()
  | some name => do
      let v ← context.getVariable name span
      if !v.isReadable then
        throw (.rejected { cause := .uninitializedTarget v.name, span })
      if !container.accepts v.type then
        throw (.rejected { cause := .invalidTargetType v.name v.type container.use, span })

/-- Logs that an assignment has passed a stage. -/
def traceStage (container : Container) (stage : Stage) : CompileM ρ Unit :=
  CompileM.record (.trace .codegen (container.function ++ ": " ++ stage.name))

/-- The five stages of an assignment. -/
def lowerAppend (resolver : Resolver ρ) (target : Target) (value : Expr) (span : Span) :
    CompileM ρ RuntimeCall := do
  let container := target.container
  CompileM.reading (container.validate span)
  traceStage container .targetValidated
  let indexes ← resolveIndexes resolver span target.indexes
  traceStage container .indicesResolved
  let chain ← classifyIndexes span .empty indexes
  traceStage container .indicesClassified
  let holder ← CompileM.withSpan span (holdValue resolver value)
  traceStage container .rhsPrepared
  let call ← CompileM.updating fun context =>
    let call := { container, holder, chain, zts := context.config.codegen.zts }
    (call, context.writeCall call)
  traceStage container .emitted
  return call

/-- Compiles `target = value`, undoing everything if it is rejected. -/
def compileAppend (resolver : Resolver ρ) (target : Target) (value : Expr) (span : Span) :
    CompileM ρ RuntimeCall :=
  CompileM.transaction <|
    CompileM.onRejection
      (fun d => .trace .codegen (target.container.function ++ " rejected: " ++ d.message))
      (lowerAppend resolver target value span)

def compileAssignment (resolver : Resolver ρ) (assignment : Assignment) : CompileM ρ RuntimeCall :=
  compileAppend resolver assignment.target assignment.value assignment.span

end AppendLowering
