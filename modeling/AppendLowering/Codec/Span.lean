import AppendLowering.Codec.Record
import AppendLowering.Source.Span

/-!
# Spans in JSON

A span is a record of its two positions and its file.
-/

namespace AppendLowering

namespace Span

def toJson (span : Span) : Json :=
  .object [("start", .ofUInt32 span.start), ("end", .ofUInt32 span.stop),
    ("file", .ofUInt32 span.file.index)]

/-- Reads a span; what is left out is that of the synthetic span. -/
def ofJson? (json : Json) : Option Span := do
  let record ← Codec.record? ["start", "end", "file"] json
  let start ← record.optional "start" 0 Json.uint32?
  let stop ← record.optional "end" 0 Json.uint32?
  let file ← record.optional "file" FileId.synthetic fun json => json.uint32?.map FileId.mk
  return { start, stop, file }

end Span

/-- The span of a node of a document, which may be left out. -/
def Codec.Record.span (record : Codec.Record) : Option Span :=
  record.optional "span" .synthetic Span.ofJson?

end AppendLowering
