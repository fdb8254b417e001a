import AppendLowering.Proofs.Source.Lines
import Mathlib.Data.List.Forall2
import Mathlib.Data.List.Induction
import Mathlib.Data.List.Nodup

/-!
# Files keep their ids

Files are added to a new map one after the other, some of them again and under
other spellings of their paths. The index of the map and its files are changed
separately, and each addition keeps them in bijection. The ids that are handed
out number the paths in the order in which they first appear. What an id stands
for is fixed by the addition that first got it, and every other id is unknown to
the map.
-/

namespace AppendLowering.SourceMap

/-- The id of the file at a position. -/
def idAt (position : Nat) : FileId := ⟨UInt32.ofNat position⟩

theorem index_idAt {position : Nat} (h : position < 4294967296) :
    (idAt position).index.toNat = position := by
  rw [idAt, UInt32.toNat_ofNat']
  exact Nat.mod_eq_of_lt h

theorem idAt_inj {position position' : Nat} (h : position < 4294967296)
    (h' : position' < 4294967296) (heq : idAt position = idAt position') :
    position = position' := by
  rw [← index_idAt h, heq, index_idAt h']

theorem idAt_index (id : FileId) : idAt id.index.toNat = id := by
  simp [idAt]

/-- The map has the file of the path under the id. -/
def Names (map : SourceMap) (id : FileId) (path : String) : Prop :=
  ∃ file, map.get id = .ok file ∧ Path.components file.path = Path.components path

/-- The index and the files are in bijection: there is an entry for each file, and a path leads to
an id exactly if the file under this id has the path. -/
structure Indexed (map : SourceMap) : Prop where
  length : map.byPath.length = map.files.length
  find?_iff : ∀ path id, map.byPath.find? path = some id ↔ map.Names id path

/-- The map with a new last file. -/
def extended (map : SourceMap) (path text : String) : SourceMap :=
  { files := map.files.push (.ofText path text)
    byPath := map.byPath.insert path (idAt map.files.length) }

/-- What `add` does: a path that is in the index gets its id and nothing changes, and any other
path gets a new last file. -/
theorem add_cases (map : SourceMap) (path text : String) :
    (∃ id, map.byPath.find? path = some id ∧ map.add path text = (id, map)) ∨
    (map.byPath.find? path = none ∧
      map.add path text = (idAt map.files.length, map.extended path text)) := by
  cases hfind : map.byPath.find? path with
  | some id => exact .inl ⟨id, rfl, by simp only [add, hfind]⟩
  | none => exact .inr ⟨rfl, by simp only [add, hfind, extended, idAt]⟩

theorem lt_length_of_get {map : SourceMap} {id : FileId} {file : SourceFile}
    (h : map.get id = .ok file) : id.index.toNat < map.files.length :=
  (List.getElem?_eq_some_iff.mp (Store.get_eq_ok_iff.mp h)).1

section Extended

variable {map : SourceMap} {path : String}

theorem get_extended (hfew : map.files.length < 4294967295) (text : String) :
    (map.extended path text).get (idAt map.files.length) = .ok (.ofText path text) := by
  rw [get, index_idAt (by omega)]
  exact Store.get_push_length map.files _

/-- A file of the extended map is the new one, or it was there before. -/
theorem get_extended_cases {text : String} {id : FileId} {file : SourceFile}
    (h : (map.extended path text).get id = .ok file) :
    (id = idAt map.files.length ∧ file = .ofText path text) ∨ map.get id = .ok file := by
  have hbound := lt_length_of_get h
  rw [extended, Store.length_push] at hbound
  rcases Nat.lt_succ_iff_lt_or_eq.mp hbound with hlt | heq
  · refine .inr (Store.get_eq_ok_iff.mpr ?_)
    have hfile := Store.get_eq_ok_iff.mp h
    rwa [extended, Store.entries_push, List.getElem?_append_left hlt] at hfile
  · refine .inl ⟨by rw [← heq, idAt_index], ?_⟩
    rw [get, heq] at h
    exact (Except.ok.inj ((Store.get_push_length map.files _).symm.trans h)).symm

theorem Names.extended {id : FileId} {known : String} (h : map.Names id known) (text : String) :
    (map.extended path text).Names id known := by
  obtain ⟨file, hfile, hsame⟩ := h
  exact ⟨file, Store.get_push_of_get hfile _, hsame⟩

theorem names_extended (hfew : map.files.length < 4294967295) (text : String) :
    (map.extended path text).Names (idAt map.files.length) path :=
  ⟨_, get_extended hfew text, rfl⟩

/-- A path that is not in the index can be entered along with its file. -/
theorem Indexed.extended (h : map.Indexed) (hfew : map.files.length < 4294967295)
    (hnew : map.byPath.find? path = none) (text : String) :
    (map.extended path text).Indexed where
  length := by
    rw [SourceMap.extended, PathIndex.length_insert hnew, Store.length_push, h.length]
  find?_iff other id := by
    rw [SourceMap.extended, PathIndex.find?_insert]
    cases hother : Path.same path other with
    | true =>
        have hsame : Path.components path = Path.components other := by
          simpa [Path.same] using hother
        constructor
        · intro hid
          obtain rfl : idAt map.files.length = id := by simpa using hid
          exact ⟨_, get_extended hfew text, hsame⟩
        · rintro ⟨file, hfile, hcomponents⟩
          rcases get_extended_cases hfile with ⟨rfl, -⟩ | hknown
          · rfl
          · -- a file that was there under this path would be in the index
            have hfound := (h.find?_iff path id).mpr ⟨file, hknown, hcomponents.trans hsame.symm⟩
            rw [hnew] at hfound
            cases hfound
    | false =>
        have hother' : Path.components path ≠ Path.components other := by
          simpa [Path.same] using hother
        rw [if_neg Bool.false_ne_true, h.find?_iff]
        refine ⟨fun hnames => hnames.extended text, ?_⟩
        rintro ⟨file, hfile, hcomponents⟩
        rcases get_extended_cases hfile with ⟨-, rfl⟩ | hknown
        · exact absurd hcomponents hother'
        · exact ⟨file, hknown, hcomponents⟩

end Extended

/-- Different ids mean different paths. -/
theorem Names.eq_iff {map : SourceMap} {id id' : FileId} {path path' : String}
    (hindexed : map.Indexed) (h : map.Names id path) (h' : map.Names id' path') :
    id = id' ↔ Path.components path = Path.components path' := by
  constructor
  · rintro rfl
    obtain ⟨file, hfile, hsame⟩ := h
    obtain ⟨file', hfile', hsame'⟩ := h'
    obtain rfl := Except.ok.inj (hfile.symm.trans hfile')
    rw [← hsame, hsame']
  · intro heq
    obtain ⟨file, hfile, hsame⟩ := h
    have hfound := (hindexed.find?_iff path' id).mpr ⟨file, hfile, hsame.trans heq⟩
    exact Option.some.inj (hfound.symm.trans ((hindexed.find?_iff path' id').mpr h'))

/-- A file that is to be added. -/
structure Addition where
  path : String
  text : String
  deriving DecidableEq, Repr

/-- A map, with the ids that it handed out in order. -/
structure Ledger where
  ids : List FileId
  map : SourceMap
  deriving DecidableEq, Repr

namespace Ledger

def start : Ledger := { ids := [], map := .empty }

def perform (ledger : Ledger) (addition : Addition) : Ledger :=
  let (id, map) := ledger.map.add addition.path addition.text
  { ids := ledger.ids ++ [id], map }

/-- The ledger of additions to a new map. -/
def run (additions : List Addition) : Ledger := additions.foldl perform start

theorem run_concat (additions : List Addition) (last : Addition) :
    run (additions ++ [last]) = (run additions).perform last := by
  simp [run]

/-- What is added later does not change the ids that were handed out. -/
theorem ids_run_append (earlier later : List Addition) :
    ∃ more, (run (earlier ++ later)).ids = (run earlier).ids ++ more := by
  induction later using List.reverseRecOn with
  | nil => exact ⟨[], by simp⟩
  | append_singleton later last ih =>
      obtain ⟨more, hmore⟩ := ih
      rw [← List.append_assoc, run_concat]
      exact ⟨more ++ [((run (earlier ++ later)).map.add last.path last.text).1],
        by simp [perform, hmore]⟩

/-- The ledger tells how its map came about. The index of the map fits its files. Each id is that
of the file which the path of its addition names, the ids number the files in order, and each file
is what the first addition with its id was for. -/
structure Records (additions : List Addition) (ledger : Ledger) : Prop where
  files : ledger.map.files.length ≤ additions.length
  indexed : ledger.map.Indexed
  named : List.Forall₂ (fun (addition : Addition) id => ledger.map.Names id addition.path)
    additions ledger.ids
  order : ledger.ids.eraseDups = (List.range ledger.map.files.length).map idAt
  stored : ∀ id file, ledger.map.get id = .ok file →
    ∃ first : Addition, additions[ledger.ids.idxOf id]? = some first ∧
      file = .ofText first.path first.text

namespace Records

variable {additions : List Addition} {ledger : Ledger} {addition : Addition} {id : FileId}

theorem start : Records [] start where
  files := Nat.le_refl 0
  indexed := ⟨rfl, fun path id => by
    simp [Ledger.start, SourceMap.empty, Store.empty, PathIndex.find?, Names, get, Store.get]⟩
  named := .nil
  order := rfl
  stored id file h := by simp [Ledger.start, SourceMap.empty, Store.empty, get, Store.get] at h

theorem mem_ids_iff (h : Records additions ledger) :
    id ∈ ledger.ids ↔ ∃ position < ledger.map.files.length, idAt position = id := by
  rw [← List.mem_eraseDups, h.order]
  simp

/-- A file of the map stands under an id that was handed out. -/
theorem mem_ids_of_get (h : Records additions ledger) {file : SourceFile}
    (hfile : ledger.map.get id = .ok file) : id ∈ ledger.ids :=
  h.mem_ids_iff.mpr ⟨id.index.toNat, lt_length_of_get hfile, idAt_index id⟩

/-- The addition that first got an id stays the first. -/
theorem stored_append (h : Records additions ledger) (more : List FileId) (later : List Addition)
    {file : SourceFile} (hfile : ledger.map.get id = .ok file) :
    ∃ first : Addition, (additions ++ later)[(ledger.ids ++ more).idxOf id]? = some first ∧
      file = .ofText first.path first.text := by
  obtain ⟨first, hfirst, hof⟩ := h.stored id file hfile
  refine ⟨first, ?_, hof⟩
  rw [List.idxOf_append_of_mem (h.mem_ids_of_get hfile),
    List.getElem?_append_left (List.getElem?_eq_some_iff.mp hfirst).1, hfirst]

/-- The path of an addition is in the index. -/
theorem known (h : Records additions ledger)
    (hfound : ledger.map.byPath.find? addition.path = some id) :
    Records (additions ++ [addition]) { ledger with ids := ledger.ids ++ [id] } := by
  have hnames := (h.indexed.find?_iff _ _).mp hfound
  constructor
  · exact Nat.le_trans h.files (by simp)
  · exact h.indexed
  · exact List.rel_append h.named (.cons hnames .nil)
  · obtain ⟨file, hfile, -⟩ := hnames
    rw [List.eraseDups_append, h.order]
    simp [List.removeAll, h.mem_ids_of_get hfile]
  · exact fun id file hfile => h.stored_append _ _ hfile

/-- The path of an addition is not in the index. -/
theorem new (h : Records additions ledger) (hfew : additions.length < 4294967295)
    (hnew : ledger.map.byPath.find? addition.path = none) :
    Records (additions ++ [addition])
      { ids := ledger.ids ++ [idAt ledger.map.files.length]
        map := ledger.map.extended addition.path addition.text } := by
  have hfiles := h.files
  have hroom : ledger.map.files.length < 4294967295 := by omega
  have hfresh : idAt ledger.map.files.length ∉ ledger.ids := by
    intro hmem
    obtain ⟨position, hlt, heq⟩ := h.mem_ids_iff.mp hmem
    exact absurd (idAt_inj (by omega) (by omega) heq) (Nat.ne_of_lt hlt)
  constructor
  · simp only [extended, Store.length_push, List.length_append, List.length_singleton]
    omega
  · exact h.indexed.extended hroom hnew addition.text
  · refine List.rel_append (h.named.imp fun _ _ hnamed => hnamed.extended _) (.cons ?_ .nil)
    exact names_extended hroom addition.text
  · rw [List.eraseDups_append, h.order, extended, Store.length_push, List.range_succ,
      List.map_append]
    simp [List.removeAll, hfresh, List.eraseDups_cons]
  · intro id file hfile
    rcases get_extended_cases hfile with ⟨rfl, rfl⟩ | hknown
    · refine ⟨addition, ?_, rfl⟩
      rw [List.idxOf_append_of_notMem hfresh, h.named.length_eq.symm]
      simp
    · exact h.stored_append _ _ hknown

theorem perform (h : Records additions ledger) (hfew : additions.length < 4294967295)
    (addition : Addition) : Records (additions ++ [addition]) (ledger.perform addition) := by
  rcases ledger.map.add_cases addition.path addition.text with ⟨id, hfound, hadd⟩ | ⟨hnew, hadd⟩
  · simpa only [Ledger.perform, hadd] using h.known hfound
  · simpa only [Ledger.perform, hadd] using h.new hfew hnew

end Records

theorem run_records (additions : List Addition) (hfew : additions.length < 4294967295) :
    Records additions (run additions) := by
  induction additions using List.reverseRecOn with
  | nil => exact .start
  | append_singleton additions last ih =>
      rw [List.length_append, List.length_singleton] at hfew
      rw [run_concat]
      exact (ih (by omega)).perform (by omega) last

/-- The ids that were handed out up to some time are the first of all. -/
theorem ids_run_take (additions : List Addition) (hfew : additions.length < 4294967295)
    (time : Nat) : (run (additions.take time)).ids = (run additions).ids.take time := by
  obtain ⟨more, hmore⟩ := ids_run_append (additions.take time) (additions.drop time)
  rw [List.take_append_drop] at hmore
  have hlength := (run_records additions hfew).named.length_eq
  have htaken : (run (additions.take time)).ids.length = min time additions.length := by
    rw [← List.length_take]
    exact (run_records _ (Nat.lt_of_le_of_lt (List.length_take_le' ..) hfew)).named.length_eq.symm
  calc
    (run (additions.take time)).ids =
        (run additions).ids.take (run (additions.take time)).ids.length := by
      rw [hmore, List.take_left]
    _ = (run additions).ids.take time := by
      rw [htaken, List.take_eq_take_iff, ← hlength]
      omega

end Ledger

/-- The map knows a file exactly if it has one to give. -/
theorem get_eq_error_iff (map : SourceMap) (id : FileId) :
    map.get id = .error .unknownId ↔ map.contains id = false := by
  rw [get, Store.get, contains, decide_eq_false_iff_not, Nat.not_lt, Store.length,
    ← List.getElem?_eq_none_iff]
  split
  · next file hfile => simp [hfile]
  · next hnone => simp [hnone]

theorem exists_get_of_contains {map : SourceMap} {id : FileId} (h : map.contains id = true) :
    ∃ file, map.get id = .ok file := by
  rw [contains, decide_eq_true_iff, Store.length] at h
  exact ⟨_, Store.get_eq_ok_iff.mpr (List.getElem?_eq_getElem h)⟩

namespace Ledger.Records

variable {additions : List Addition} {ledger : Ledger}

theorem contains_iff (h : Records additions ledger) (hfew : additions.length < 4294967295)
    (id : FileId) : ledger.map.contains id = true ↔ id ∈ ledger.ids := by
  rw [contains, decide_eq_true_iff, h.mem_ids_iff]
  constructor
  · intro hlt
    exact ⟨id.index.toNat, hlt, idAt_index id⟩
  · rintro ⟨position, hlt, rfl⟩
    have hfiles := h.files
    rwa [index_idAt (by omega)]

/-- An id stands for what the first addition that got it was for. -/
theorem get_of_mem (h : Records additions ledger) (hfew : additions.length < 4294967295)
    {id : FileId} (hid : id ∈ ledger.ids) :
    ∃ first : Addition, additions[ledger.ids.idxOf id]? = some first ∧
      ledger.map.get id = .ok (.ofText first.path first.text) := by
  obtain ⟨file, hfile⟩ := exists_get_of_contains ((h.contains_iff hfew id).mpr hid)
  obtain ⟨first, hfirst, rfl⟩ := h.stored id file hfile
  exact ⟨first, hfirst, hfile⟩

theorem exists_named (h : Records additions ledger) {i : Nat} {addition : Addition}
    (haddition : additions[i]? = some addition) :
    ∃ id, ledger.ids[i]? = some id ∧ ledger.map.Names id addition.path := by
  obtain ⟨hlt, rfl⟩ := List.getElem?_eq_some_iff.mp haddition
  have hlt' : i < ledger.ids.length := h.named.length_eq ▸ hlt
  exact ⟨ledger.ids[i], List.getElem?_eq_getElem hlt', h.named.get hlt hlt'⟩

theorem index_eraseDups (h : Records additions ledger) (hfew : additions.length < 4294967295) :
    ledger.ids.eraseDups.map (·.index.toNat) = List.range ledger.ids.eraseDups.length := by
  have hfiles := h.files
  rw [h.order, List.length_map, List.length_range, List.map_map]
  refine (List.map_congr_left fun position hposition => ?_).trans (List.map_id _)
  have hlt := List.mem_range.mp hposition
  exact index_idAt (by omega)

theorem synthetic_notMem (h : Records additions ledger) (hfew : additions.length < 4294967295) :
    FileId.synthetic ∉ ledger.ids := by
  intro hmem
  obtain ⟨position, hlt, heq⟩ := h.mem_ids_iff.mp hmem
  have hfiles := h.files
  have hindex : (idAt position).index.toNat = 4294967295 := by
    rw [heq]
    rfl
  rw [index_idAt (by omega)] at hindex
  omega

end Ledger.Records

/-- Additions get the same id exactly if their paths have the same components, and the ids count
the paths in the order of their first appearance. At any time the index of the map has an entry for
each of its files, and leads from a path to an id exactly if the file under this id has the path.
The map knows the ids that it has handed out so far, and no others: each of them stands for the path
and the text of the addition that first got it, with the line starts of this text. These are kept
as words, which are the positions themselves in a text of less than `2 ^ 32` bytes. -/
theorem run_interns (additions : List Addition) (hfew : additions.length < 4294967295) :
    let ids := (Ledger.run additions).ids
    ids.length = additions.length ∧
    (∀ (i j : Nat) (first second : Addition),
      additions[i]? = some first → additions[j]? = some second →
      (ids[i]? = ids[j]? ↔ Path.components first.path = Path.components second.path)) ∧
    ids.eraseDups.map (·.index.toNat) = List.range ids.eraseDups.length ∧
    FileId.synthetic ∉ ids ∧
    ∀ time,
      let map := (Ledger.run (additions.take time)).map
      (Ledger.run (additions.take time)).ids = ids.take time ∧
      map.byPath.length = map.files.length ∧
      (∀ path id, map.byPath.find? path = some id ↔
        ∃ file, map.get id = .ok file ∧ Path.components file.path = Path.components path) ∧
      ∀ id : FileId,
        (map.contains id = true ↔ id ∈ ids.take time) ∧
        (map.get id = .error .unknownId ↔ map.contains id = false) ∧
        (id ∈ ids.take time → ∃ (first : Addition) (file : SourceFile) (starts : List Nat),
          additions[ids.idxOf id]? = some first ∧
          map.get id = .ok file ∧ file.path = first.path ∧ file.text = first.text ∧
          Text.LinesStartAt first.text.toList starts ∧
          file.lineStarts = starts.map UInt32.ofNat ∧
          (Text.byteLength first.text.toList < UInt32.size →
            file.lineStarts.map UInt32.toNat = starts)) := by
  intro ids
  have hrecords := Ledger.run_records additions hfew
  refine ⟨hrecords.named.length_eq.symm, ?_, ?_, hrecords.synthetic_notMem hfew, ?_⟩
  · intro i j first second hfirst hsecond
    obtain ⟨id, hid, hnames⟩ := hrecords.exists_named hfirst
    obtain ⟨id', hid', hnames'⟩ := hrecords.exists_named hsecond
    rw [hid, hid', Option.some_inj]
    exact hnames.eq_iff hrecords.indexed hnames'
  · exact hrecords.index_eraseDups hfew
  · intro time map
    have htime : (additions.take time).length < 4294967295 :=
      Nat.lt_of_le_of_lt (List.length_take_le' ..) hfew
    have hearlier := Ledger.run_records (additions.take time) htime
    have hids := Ledger.ids_run_take additions hfew time
    refine ⟨hids, hearlier.indexed.length, hearlier.indexed.find?_iff,
      fun id => ⟨?_, get_eq_error_iff _ id, ?_⟩⟩
    · rw [hearlier.contains_iff htime, hids]
    · intro hid
      rw [← hids] at hid
      obtain ⟨first, hfirst, hget⟩ := hearlier.get_of_mem htime hid
      refine ⟨first, _, _, ?_, hget, rfl, rfl, SourceFile.linesStartAt_lineStartsFrom _, rfl,
        fun hlength => SourceFile.toNat_lineStarts hlength _⟩
      have hidx : ids.idxOf id = (Ledger.run (additions.take time)).ids.idxOf id := by
        rw [← List.take_append_drop time ids, ← hids, List.idxOf_append_of_mem hid]
      rw [hidx]
      rw [List.getElem?_take] at hfirst
      split at hfirst
      · exact hfirst
      · cases hfirst

/-- A path is spelled in three ways, and another one is added in between. -/
def respelledAdditions : List Addition :=
  [{ path := "src/a.zep", text := "é\n\nx" }, { path := "./src/a.zep", text := "" },
    { path := "src//./a.zep/", text := "later" }, { path := "src/a.zep", text := "" }]

theorem run_interns_respelled :
    let ids := (Ledger.run respelledAdditions).ids
    let map := (Ledger.run respelledAdditions).map
    ids[0]? = ids[2]? ∧ ids[0]? ≠ ids[1]? ∧
    map.byPath.find? "./src//a.zep" = some (idAt 1) ∧
    map.contains (idAt 1) = true ∧
    map.get (idAt 2) = .error .unknownId ∧
    ∃ file, map.get (idAt 0) = .ok file ∧ file.path = "src/a.zep" ∧ file.text = "é\n\nx" ∧
      file.lineStarts.map UInt32.toNat = [0, 3, 4] ∧
      Text.LinesStartAt "é\n\nx".toList [0, 3, 4] := by
  intro ids map
  obtain ⟨-, hsame, -, -, htime⟩ := run_interns respelledAdditions (by decide)
  obtain ⟨-, -, hindex, hmap⟩ := htime 4
  obtain ⟨first, file, starts, hfirst, hget, hpath, htext, hlines, hwords, hexact⟩ :=
    (hmap (idAt 0)).2.2 (by decide +kernel)
  obtain rfl : first = { path := "src/a.zep", text := "é\n\nx" } := by
    have hidx : (Ledger.run respelledAdditions).ids.idxOf (idAt 0) = 0 := by decide +kernel
    rw [hidx] at hfirst
    exact (Option.some.inj hfirst).symm
  have hexact := hexact (by decide +kernel)
  have hstarts : starts = [0, 3, 4] := by
    obtain rfl : file = .ofText "src/a.zep" "é\n\nx" := by
      have hfile : map.get (idAt 0) = .ok (.ofText "src/a.zep" "é\n\nx") := by decide +kernel
      exact Except.ok.inj (hget.symm.trans hfile)
    rw [← hexact]
    decide +kernel
  subst hstarts
  refine ⟨?_, ?_, ?_, ?_, ?_, file, hget, hpath, htext, hexact, hlines⟩
  · exact (hsame 0 2 _ _ rfl rfl).mpr (by decide +kernel)
  · exact fun h => absurd ((hsame 0 1 _ _ rfl rfl).mp h) (by decide +kernel)
  · exact (hindex _ _).mpr ⟨.ofText "./src/a.zep" "", by decide +kernel, by decide +kernel⟩
  · exact (hmap (idAt 1)).1.mpr (by decide +kernel)
  · exact (hmap (idAt 2)).2.1.mpr (by decide +kernel)

end AppendLowering.SourceMap
