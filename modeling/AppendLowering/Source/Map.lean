import AppendLowering.Source.Path
import AppendLowering.Source.Span
import AppendLowering.Store
import AppendLowering.Text.Bytes
import AppendLowering.Word

/-!
# Source maps

The source map keeps the text of every file and answers where a byte position
lies. A file is added once: a path that names a known file gets its id, and
the text given with it is not looked at. The ids of the paths are kept in an
index of its own, beside the files. Positions, lines and columns are machine
words: a line start is cut to a word, and a place that no word can number is a
fault.
-/

namespace AppendLowering

/-- A file with the positions at which its lines begin. -/
structure SourceFile where
  path : String
  text : String
  lineStarts : List UInt32
  deriving DecidableEq, Repr

namespace SourceFile

/-- The positions just after the line feeds of a text that begins at `position`. -/
def lineStartsFrom (position : Nat) : List Char → List Nat
  | [] => []
  | c :: rest =>
      let next := position + c.utf8Size
      if c = '\n' then next :: lineStartsFrom next rest else lineStartsFrom next rest

def ofText (path text : String) : SourceFile :=
  { path, text, lineStarts := (0 :: lineStartsFrom 0 text.toList).map UInt32.ofNat }

/-- The number of entries that pass a test, found by halving: those that pass it stand before
those that do not. -/
def partitionPoint {α : Type} (test : α → Bool) (entries : List α) : Nat :=
  match h : entries.drop (entries.length / 2) with
  | [] => 0
  | middle :: upper =>
      if test middle then entries.length / 2 + 1 + partitionPoint test upper
      else partitionPoint test (entries.take (entries.length / 2))
termination_by entries.length
decreasing_by
  all_goals
    have hlength := congrArg List.length h
    simp only [List.length_drop, List.length_cons, List.length_take] at hlength ⊢
    omega

/-- The number of lines that begin at or before a position. -/
def linesUpTo (file : SourceFile) (position : UInt32) : Nat :=
  partitionPoint (· ≤ position) file.lineStarts

/-- The number from one that goes with a count from zero. The count is cut to a word first. -/
def number (count : Nat) : Except Fault UInt32 :=
  match Word.next? (UInt32.ofNat count) with
  | some word => .ok word
  | none => .error .overflow

/-- The line of a position and its column in characters, both counted from one.
A position past the end counts as the end. -/
def lineCol (file : SourceFile) (position : UInt32) : Except Fault (UInt32 × UInt32) := do
  let line := file.linesUpTo position - 1
  let start := (file.lineStarts.getD line 0).toNat
  let stop := min position.toNat (Text.byteLength file.text.toList)
  match Text.sliceBytes file.text.toList start stop with
  | some before => return (← number line, ← number before.length)
  | none => .error .splitCharacter

end SourceFile

/-- Paths with the ids of their files. The spellings of a path are one key. -/
abbrev PathIndex := List (String × FileId)

namespace PathIndex

def find? (index : PathIndex) (path : String) : Option FileId :=
  (List.find? (fun entry => Path.same entry.1 path) index).map Prod.snd

/-- Enters a path, in place of an earlier entry for it. -/
def insert (index : PathIndex) (path : String) (id : FileId) : PathIndex :=
  (path, id) :: index.filter fun entry => !Path.same entry.1 path

/-- Entering a path changes what is found under the spellings of this path only. -/
theorem find?_insert (index : PathIndex) (path other : String) (id : FileId) :
    (index.insert path id).find? other =
      if Path.same path other then some id else index.find? other := by
  rw [insert, find?, List.find?_cons]
  cases hother : Path.same path other with
  | true => rfl
  | false =>
      -- an entry for `other` is none for `path`, so it is not replaced
      have hkept (entry : String × FileId) : decide ((!Path.same entry.1 path) = true ∧
          Path.same entry.1 other = true) = Path.same entry.1 other := by
        simp only [Path.same, beq_eq_false_iff_ne] at hother ⊢
        grind
      simp only [List.find?_filter, hkept, find?]
      rfl

theorem length_insert {index : PathIndex} {path : String} (h : index.find? path = none)
    (id : FileId) : (index.insert path id).length = index.length + 1 := by
  have hall : index.filter (fun entry => !Path.same entry.1 path) = index := by
    rw [List.filter_eq_self]
    intro entry hentry
    rw [find?, Option.map_eq_none_iff, List.find?_eq_none] at h
    simpa using h entry hentry
  rw [insert, hall, List.length_cons]

end PathIndex

/-- The files of a compilation, by id and by path. -/
structure SourceMap where
  files : Store SourceFile
  byPath : PathIndex
  deriving DecidableEq, Repr

namespace SourceMap

def empty : SourceMap := { files := .empty, byPath := [] }

instance : Inhabited SourceMap := ⟨empty⟩

/-- Adds a file, unless its path is in the index. -/
def add (map : SourceMap) (path text : String) : FileId × SourceMap :=
  match map.byPath.find? path with
  | some id => (id, map)
  | none =>
      let id : FileId := ⟨UInt32.ofNat map.files.length⟩
      (id, { files := map.files.push (.ofText path text), byPath := map.byPath.insert path id })

def contains (map : SourceMap) (file : FileId) : Bool :=
  file.index.toNat < map.files.length

def get (map : SourceMap) (file : FileId) : Except Fault SourceFile :=
  map.files.get file.index.toNat

/-- The line and column of a position in a file. -/
def lineCol (map : SourceMap) (file : FileId) (position : UInt32) :
    Except Fault (UInt32 × UInt32) := do
  (← map.get file).lineCol position

/-- The text that a span covers. -/
def slice (map : SourceMap) (span : Span) : Except Fault String := do
  let file ← map.get span.file
  match Text.sliceBytes file.text.toList span.start.toNat span.stop.toNat with
  | some text => .ok (String.ofList text)
  | none => .error .outOfRange

end SourceMap

end AppendLowering
