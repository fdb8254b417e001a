import AppendLowering.Proofs.Symbol.Numbering
import AppendLowering.Word
import Mathlib.Order.Bounds.Basic

/-!
# The search for a free number

Any of the numbers from the counter on may be taken by declared variables, but
no two numbers have the same name. The search therefore passes over at most as
many numbers as names are bound. On a counter of 32 bits it ends before the
counter runs out whenever the counter and the number of bound names leave room,
and the temporary that takes the number changes nothing else in the table.
-/

namespace AppendLowering.SymbolTable

/-- A number that is passed over uses up a binding that was ahead. -/
theorem firstFree_le_add_untried (names : Bindings) (start : Nat) :
    firstFree names start ≤ start + untried names start := by
  fun_induction firstFree names start with
  | case1 number htaken ih =>
      have hless := untried_succ_lt htaken
      omega
  | case2 number hfree => exact Nat.le_add_right number _

theorem firstFree_le_add_length (names : Bindings) (start : Nat) :
    firstFree names start ≤ start + names.length := by
  calc firstFree names start
      ≤ start + untried names start := firstFree_le_add_untried names start
    _ ≤ start + names.length := Nat.add_le_add_left List.countP_le_length start

theorem isLeast_freeNumber (table : SymbolTable) :
    IsLeast {k | table.counter ≤ k ∧ table.contains (temporaryName k) = false}
      table.freeNumber := by
  obtain ⟨hle, hpassed⟩ := freeNumber_first table
  constructor
  · exact ⟨hle, contains_freeNumber table⟩
  · rintro k ⟨hcounter, hfree⟩
    by_contra hlt
    have htaken := hpassed k hcounter (Nat.lt_of_not_le hlt)
    simp [hfree] at htaken

/-- The search with a counter of 32 bits, which has no result if it would have to count past the
last word. -/
def searchWords? (names : Bindings) (counter : UInt32) : Option UInt32 :=
  if names.contains (temporaryName counter.toNat) then
    match _hnext : Word.next? counter with
    | some next => searchWords? names next
    | none => none
  else some counter
termination_by UInt32.size - counter.toNat
decreasing_by
  have hstep := Word.next?_eq_some_iff.mp _hnext
  have hlt := next.toNat_lt_size
  omega

/-- Words are searched as numbers are, as long as the number that is found is a word. -/
theorem searchWords?_eq_some_iff (names : Bindings) (counter number : UInt32) :
    searchWords? names counter = some number ↔
      number.toNat = firstFree names counter.toNat := by
  fun_induction searchWords? names counter with
  | case1 counter htaken next hnext ih =>
      rw [ih, Word.next?_eq_some_iff.mp hnext]
      conv_rhs => rw [firstFree, if_pos htaken]
  | case2 counter htaken hnone =>
      -- every number found from here on is at least the number of words
      have hlast := Word.next?_eq_none_iff.mp hnone
      have hle := (firstFree_first names (counter.toNat + 1)).1
      have hnumber := number.toNat_lt_size
      rw [firstFree, if_pos htaken]
      constructor
      · intro h
        cases h
      · intro h
        omega
  | case3 counter hfree =>
      rw [firstFree, if_neg hfree, Option.some.injEq, ← UInt32.toNat_inj, eq_comm]

/-- The number that a temporary takes and the counter after it, on words. -/
def takeWord? (names : Bindings) (counter : UInt32) : Option (UInt32 × UInt32) :=
  (searchWords? names counter).bind fun number =>
    (Word.next? number).map fun next => (number, next)

theorem takeWord?_eq_some_iff (names : Bindings) (counter number next : UInt32) :
    takeWord? names counter = some (number, next) ↔
      number.toNat = firstFree names counter.toNat ∧ next.toNat = number.toNat + 1 := by
  simp only [takeWord?, Option.bind_eq_some_iff, Option.map_eq_some_iff, Prod.mk.injEq,
    searchWords?_eq_some_iff, Word.next?_eq_some_iff]
  constructor
  · rintro ⟨_, hnumber, _, hnext, rfl, rfl⟩
    exact ⟨hnumber, hnext⟩
  · rintro ⟨hnumber, hnext⟩
    exact ⟨number, hnumber, next, hnext, rfl, rfl⟩

/-- The counter does not run out if the first free number is a word other than the last. -/
theorem takeWord?_eq_some {names : Bindings} {counter : Nat}
    (h : firstFree names counter + 1 < UInt32.size) :
    takeWord? names (.ofNat counter) =
      some (.ofNat (firstFree names counter), .ofNat (firstFree names counter + 1)) := by
  have hle := (firstFree_first names counter).1
  rw [takeWord?_eq_some_iff, UInt32.toNat_ofNat_of_lt' h, UInt32.toNat_ofNat_of_lt' (by omega),
    UInt32.toNat_ofNat_of_lt' (by omega)]
  exact ⟨rfl, rfl⟩

/-- As long as the counter and the bound names leave room among the words, the search ends at the
least number from the counter on whose name is free, and no addition to the counter overflows.
The temporary is stored last and bound to this name, the counter stands after the number, and all
other names are bound and found as before. -/
theorem freshTemporary_takes_least (table : SymbolTable) (type : DataType) (span : Span)
    (hroom : table.counter + table.names.length < UInt32.size - 1) :
    ∃ number,
      IsLeast {k | table.counter ≤ k ∧ table.contains (temporaryName k) = false} number ∧
      number + 1 < UInt32.size ∧
      takeWord? table.names (.ofNat table.counter) = some (.ofNat number, .ofNat (number + 1)) ∧
      let temporary : Variable :=
        { name := temporaryName number, type, initialized := true, storage := .temporary, span }
      let after := (table.freshTemporary type span).2
      (table.freshTemporary type span).1 = temporary ∧
      after.counter = number + 1 ∧
      after.declared.entries = table.declared.entries ++ [temporary] ∧
      (∀ name, after.names.find? name =
        if name = temporaryName number then some table.declared.length
        else table.names.find? name) ∧
      after.lookup (temporaryName number) = .ok (some temporary) ∧
      ∀ name found, name ≠ temporaryName number → table.lookup name = .ok found →
        after.lookup name = .ok found := by
  have hbound : table.freeNumber ≤ table.counter + table.names.length :=
    firstFree_le_add_length table.names table.counter
  have hword : table.freeNumber + 1 < UInt32.size := by omega
  refine ⟨table.freeNumber, isLeast_freeNumber table, hword, takeWord?_eq_some hword, rfl, rfl, rfl,
    find?_freshTemporary table type span, lookup_freshTemporary table type span, ?_⟩
  intro name found hname hfound
  exact lookup_freshTemporary_of_ne type span hname hfound

/-- The counter has four words left, and variables have the names of the first two. -/
def crowdedTable : SymbolTable :=
  { ofList [.declare "_4294967292" .long .localSlot .synthetic,
      .declare "_4294967293" .array .parameter .synthetic] with
    counter := 4294967292 }

theorem freshTemporary_takes_least_crowded :
    crowdedTable.counter + crowdedTable.names.length = UInt32.size - 2 ∧
    takeWord? crowdedTable.names 4294967292 = some (4294967294, 4294967295) ∧
    (crowdedTable.freshTemporary .dynamic .synthetic).1.name = "_4294967294" ∧
    (crowdedTable.freshTemporary .dynamic .synthetic).2.counter = 4294967295 ∧
    (crowdedTable.freshTemporary .dynamic .synthetic).2.names.find? "_4294967294" = some 2 ∧
    (crowdedTable.freshTemporary .dynamic .synthetic).2.lookup "_4294967293" =
      .ok (some (.declare "_4294967293" .array .parameter .synthetic)) := by
  obtain ⟨number, ⟨⟨hle, hfree⟩, hleast⟩, -, hwords, htemporary, hcounter, -, hfind, -, hother⟩ :=
    freshTemporary_takes_least crowdedTable .dynamic .synthetic (by decide +kernel)
  have hnumber : number = 4294967294 := by
    have hupper : number ≤ 4294967294 := hleast ⟨by decide +kernel, by decide +kernel⟩
    have hlower : 4294967292 ≤ number := hle
    obtain rfl | rfl | h : number = 4294967292 ∨ number = 4294967293 ∨ number = 4294967294 := by
      omega
    · exact absurd hfree (by decide +kernel)
    · exact absurd hfree (by decide +kernel)
    · exact h
  subst hnumber
  have hname : temporaryName 4294967294 = "_4294967294" := by decide +kernel
  rw [hname] at htemporary hfind hother
  refine ⟨by decide +kernel, hwords, by rw [htemporary], hcounter, ?_, ?_⟩
  · rw [hfind, if_pos rfl]
    decide +kernel
  · exact hother _ _ (by decide) (by decide +kernel)

-- One more name, and the number found is the last word: the counter has nowhere to go.
example : takeWord? [("_4294967292", 0), ("_4294967293", 1), ("_4294967294", 2)] 4294967292 =
    none := by
  decide +kernel

end AppendLowering.SymbolTable
