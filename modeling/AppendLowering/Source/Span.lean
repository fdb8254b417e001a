import AppendLowering.Fault

/-!
# Spans

A span is a half-open range of byte positions in one file. Ranges that come
from outside may be inverted; only `Span.make` insists on their order.
-/

namespace AppendLowering

/-- The bytes from `start` up to `stop` of a file. -/
structure Span where
  start : UInt32
  stop : UInt32
  file : FileId
  deriving DecidableEq, Repr

namespace Span

/-- The span of things that were never written in a source text. -/
def synthetic : Span := ⟨0, 0, FileId.synthetic⟩

instance : Inhabited Span := ⟨synthetic⟩

/-- The empty span at a position. -/
def emptyAt (file : FileId) (start : UInt32) : Span := ⟨start, start, file⟩

/-- The span of an ordered range. -/
def make (file : FileId) (start stop : UInt32) : Except Fault Span :=
  if start ≤ stop then .ok ⟨start, stop, file⟩ else .error (.invertedRange start stop)

/-- Whether the span lies in no file. -/
def isSynthetic (span : Span) : Bool := span.file == FileId.synthetic

/-- The number of bytes covered; an inverted range covers none. -/
def length (span : Span) : Nat := span.stop.toNat - span.start.toNat

def isEmpty (span : Span) : Bool := span.length == 0

/-- The least span that covers both, which must lie in one file. -/
def merge (a b : Span) : Except Fault Span :=
  if a.file = b.file then
    .ok ⟨min a.start b.start, max a.stop b.stop, a.file⟩
  else
    .error (.mixedFiles a.file b.file)

/-- The span itself, or `fallback` when it lies in no file. -/
def orElse (span fallback : Span) : Span :=
  if span.isSynthetic then fallback else span

def display (span : Span) : String :=
  "(span start: " ++ Nat.repr span.start.toNat ++ " end: " ++ Nat.repr span.stop.toNat ++
    " file: " ++ span.file.display ++ ")"

end Span

end AppendLowering
