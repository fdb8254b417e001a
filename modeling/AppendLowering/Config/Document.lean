import AppendLowering.Config.Basic
import AppendLowering.Toml.Parser

/-!
# Configuration files

A configuration file is a TOML document. Everything in it may be left out, and
keys that are not known do not matter.
-/

namespace AppendLowering

namespace Toml

variable {α : Type}

/-- The entries of a table, whose keys are called `keys` when a list gives them in order. A
date counts as a table without known entries. -/
def entries? (keys : List String) : Toml → Option Entries
  | .table _ entries => some entries
  | .moment => some []
  | .list items => some (keys.zip items)
  | .tables items => some (keys.zip (items.map (.table .header)))
  | _ => none

def bool? : Toml → Option Bool
  | .bool value => some value
  | _ => none

def string? : Toml → Option String
  | .text value => some value
  | _ => none

def uint8? : Toml → Option UInt8
  | .integer value => if 0 ≤ value ∧ value ≤ 255 then some (UInt8.ofNat value.toNat) else none
  | _ => none

/-- The elements of a list, each of them read. -/
def listOf? (read : Toml → Option α) : Toml → Option (List α)
  | .list items => items.mapM read
  | .tables items => items.mapM fun entries => read (.table .header entries)
  | _ => none

/-- An entry that may be left out, and must be right if it is not. -/
def optional (entries : Entries) (key : String) (default : α) (read : Toml → Option α) :
    Option α :=
  match List.lookup key entries with
  | none => some default
  | some value => read value

/-- A word, alone or as the only key of a table, with nothing under it. -/
def choice? (ofWord? : String → Option α) : Toml → Option α
  | .text word => ofWord? word
  | .table _ [(word, .table _ [])] => ofWord? word
  | .table _ [(word, .list [])] => ofWord? word
  | _ => none

end Toml

namespace Header

def ofToml? (toml : Toml) : Option Header := do
  let entries ← toml.entries? ["path", "quoted"]
  let path ← (List.lookup "path" entries).bind Toml.string?
  let quoted ← Toml.optional entries "quoted" true Toml.bool?
  return { path, quoted }

end Header

namespace CodegenOptions

def ofToml? (toml : Toml) : Option CodegenOptions := do
  let entries ← toml.entries? ["zts", "extra_headers"]
  let zts ← Toml.optional entries "zts" false Toml.bool?
  let extraHeaders ← Toml.optional entries "extra_headers" [] (Toml.listOf? Header.ofToml?)
  return { zts, extraHeaders }

end CodegenOptions

/-- The configuration of a file. -/
def Config.ofDocument? (text : String) : Option Config := do
  let entries ← Toml.parse? text
  let debug ← Toml.optional entries "debug" false Toml.bool?
  let traces ← Toml.optional entries "debug_trace" []
    (Toml.listOf? (Toml.choice? Component.ofName?))
  let quiet ← Toml.optional entries "quiet" false Toml.bool?
  let verbose ← Toml.optional entries "verbose" 0 Toml.uint8?
  let codegen ← Toml.optional entries "codegen" .default CodegenOptions.ofToml?
  return .make debug traces quiet verbose codegen

end AppendLowering
