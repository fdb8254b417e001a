import AppendLowering.Codec.Record
import AppendLowering.Config.Basic

/-!
# Options in JSON

Components are words, and a header is a record; headers are those of the
project, unless the record says otherwise.
-/

namespace AppendLowering

def Component.ofJson? : Json → Option Component := Codec.choice? Component.ofName?

def Header.ofJson? (json : Json) : Option Header := do
  let record ← Codec.record? ["path", "quoted"] json
  let path ← record.required "path" Json.text?
  let quoted ← record.optional "quoted" true Json.bool?
  return { path, quoted }

end AppendLowering
