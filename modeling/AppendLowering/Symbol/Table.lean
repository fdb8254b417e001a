import AppendLowering.Store
import AppendLowering.Symbol.Variable

/-!
# Symbol tables

The table keeps every declared variable in a store and binds each name to the
id of its newest declaration. Temporaries are called `_0`, `_1` and so on; a
counter remembers which numbers have been tried, and numbers whose name is
taken are skipped. A mark remembers how far the table had grown, so that it can
be cut back.

Ids and the counter are natural numbers. Over any history both stay below or at
the number of declarations, so they fit words of 32 bits as long as there are
fewer than `2 ^ 32` declarations; the search for a free number on such words is
compared with the one below where its bound is a hypothesis.
-/

namespace AppendLowering

/-- Names bound to ids, in the order of the declarations that hold. -/
abbrev Bindings := List (String × Nat)

namespace Bindings

/-- Binds a name, in place of an earlier binding of it. -/
def bind (names : Bindings) (name : String) (id : Nat) : Bindings :=
  names.filter (fun entry => entry.1 != name) ++ [(name, id)]

def find? (names : Bindings) (name : String) : Option Nat := List.lookup name names

def contains (names : Bindings) (name : String) : Bool := names.any fun entry => entry.1 == name

/-- Drops the bindings to ids from `limit` on. -/
def below (names : Bindings) (limit : Nat) : Bindings := names.filter fun entry => entry.2 < limit

/-- Binding a name changes what is found under this name only. -/
theorem find?_bind (names : Bindings) (name other : String) (id : Nat) :
    (names.bind name id).find? other = if other = name then some id else names.find? other := by
  induction names with
  | nil =>
      by_cases h : other = name
      · simp [bind, find?, h]
      · have hne : (other == name) = false := by simpa using h
        simp [bind, find?, List.lookup_cons, h, hne]
  | cons entry rest ih =>
      obtain ⟨key, value⟩ := entry
      simp only [bind, find?] at ih ⊢
      by_cases hkey : key = name
      · subst hkey
        by_cases h : other = key
        · simpa [h] using ih
        · have hne : (other == key) = false := by simpa using h
          simpa [h, List.lookup_cons, hne] using ih
      · have hkeep : (key != name) = true := by simpa using hkey
        by_cases hother : other = key
        · subst hother
          simp [hkeep, hkey]
        · have hne : (other == key) = false := by simpa using hother
          simpa [hkeep, List.lookup_cons, hne] using ih

theorem bind_of_fresh {names : Bindings} {name : String} (h : names.contains name = false)
    (id : Nat) : names.bind name id = names ++ [(name, id)] := by
  have hfilter : names.filter (fun entry => entry.1 != name) = names := by
    refine List.filter_eq_self.2 fun entry hmem => ?_
    simp only [contains, List.any_eq_false, beq_iff_eq] at h
    simpa using h entry hmem
  rw [bind, hfilter]

end Bindings

/-- The variables of a function. -/
structure SymbolTable where
  declared : Store Variable
  names : Bindings
  counter : Nat
  deriving DecidableEq, Repr

namespace SymbolTable

def empty : SymbolTable := { declared := .empty, names := [], counter := 0 }

instance : Inhabited SymbolTable := ⟨empty⟩

/-- Declares a variable, whose id is the number of variables declared before. -/
def declare (table : SymbolTable) (v : Variable) : SymbolTable :=
  { table with
    declared := table.declared.push v
    names := table.names.bind v.name table.declared.length }

/-- The table of variables declared in order. -/
def ofList (vs : List Variable) : SymbolTable := vs.foldl declare empty

def contains (table : SymbolTable) (name : String) : Bool := table.names.contains name

/-- The variable that a name is bound to. -/
def lookup (table : SymbolTable) (name : String) : Except Fault (Option Variable) :=
  match table.names.find? name with
  | none => .ok none
  | some id => (table.declared.get id).map some

/-- The name of the temporary with a number. -/
def temporaryName (number : Nat) : String := "_" ++ Nat.repr number

theorem temporaryName_injective : Function.Injective temporaryName := by
  intro m n h
  have hrepr : Nat.repr m = Nat.repr n := (String.append_right_inj "_").mp h
  have hdigits : Nat.toDigits 10 m = Nat.toDigits 10 n := by
    simpa only [Nat.repr, String.ofList_inj] using hrepr
  rw [← Nat.ofDigitChars_ten_toDigits (n := m), hdigits, Nat.ofDigitChars_ten_toDigits]

/-- Whether a name belongs to no number below `bound`. -/
def isUntried (bound : Nat) (name : String) : Bool :=
  (List.range bound).all fun number => temporaryName number != name

theorem isUntried_succ (bound : Nat) (name : String) :
    isUntried (bound + 1) name = (isUntried bound name && temporaryName bound != name) := by
  simp [isUntried, List.range_succ]

theorem isUntried_temporaryName (number : Nat) :
    isUntried number (temporaryName number) = true := by
  refine List.all_eq_true.mpr fun smaller hmem => bne_iff_ne.mpr fun hsame => ?_
  have hlt := List.mem_range.mp hmem
  have heq := temporaryName_injective hsame
  omega

/-- How many bindings have a name that belongs to no number below `bound`. -/
def untried (names : Bindings) (bound : Nat) : Nat :=
  names.countP fun entry => isUntried bound entry.1

/-- Trying a number uses up the bindings of its name, and no others. -/
theorem untried_eq_add (names : Bindings) (number : Nat) :
    untried names number =
      untried names (number + 1) + names.countP fun entry => entry.1 == temporaryName number := by
  induction names with
  | nil => rfl
  | cons entry rest ih =>
      have hentry : (if isUntried number entry.1 then 1 else 0) =
          (if isUntried (number + 1) entry.1 then 1 else 0) +
            (if entry.1 == temporaryName number then 1 else 0) := by
        rw [isUntried_succ]
        by_cases hname : entry.1 = temporaryName number
        · simp [hname, isUntried_temporaryName]
        · simp [hname, Ne.symm hname]
      simp only [untried, List.countP_cons] at ih ⊢
      omega

theorem untried_succ_lt {names : Bindings} {number : Nat}
    (h : names.contains (temporaryName number) = true) :
    untried names (number + 1) < untried names number := by
  have hused : 0 < names.countP fun entry => entry.1 == temporaryName number :=
    List.countP_pos_iff.mpr (List.any_eq_true.mp h)
  have hsplit := untried_eq_add names number
  omega

/-- The first number from `number` on whose name is free. Each number that is passed over uses
up a binding, so the search ends. -/
def firstFree (names : Bindings) (number : Nat) : Nat :=
  if names.contains (temporaryName number) then firstFree names (number + 1) else number
termination_by untried names number
decreasing_by exact untried_succ_lt ‹_›

/-- The number of the next temporary. -/
def freeNumber (table : SymbolTable) : Nat := firstFree table.names table.counter

/-- Declares a fresh temporary, which counts as initialized. -/
def freshTemporary (table : SymbolTable) (type : DataType) (span : Span) :
    Variable × SymbolTable :=
  let number := table.freeNumber
  let temporary := { Variable.declare (temporaryName number) type .temporary span with
    initialized := true }
  (temporary, { table with counter := number + 1 }.declare temporary)

/-- How far a table had grown. -/
structure Mark where
  length : Nat
  counter : Nat
  deriving DecidableEq, Repr

def mark (table : SymbolTable) : Mark :=
  { length := table.declared.length, counter := table.counter }

/-- Drops what was declared after a mark. A name that had been declared again by then
is dropped with its newer declaration. -/
def rollback (table : SymbolTable) (mark : Mark) : SymbolTable :=
  { declared := table.declared.truncate mark.length
    names := table.names.below mark.length
    counter := mark.counter }

/-- The temporaries in the order of their declaration. -/
def temporaries (table : SymbolTable) : List Variable :=
  table.declared.entries.filter Variable.isTemporary

end SymbolTable

end AppendLowering
