import AppendLowering.Compile.Context
import AppendLowering.Proofs.Symbol.Numbering
import AppendLowering.Proofs.Symbol.Undo
import Mathlib.Data.List.Perm.Subperm

/-!
# Tables under any sequence of operations

A table lives through declarations, fresh temporaries, marks and rollbacks. A
rollback may go to any mark that was ever taken, in any order: also to one that
lies beyond the present end of the store, or whose counter is ahead of the
present one. Ids and the counter never exceed the number of declarations made,
so that they fit into any word that can count these.
-/

namespace AppendLowering.SymbolTable

/-- What is done to a table. Marks are named by the order in which they were taken. -/
inductive Operation where
  | change (made : Change)
  | mark
  | rollback (position : Nat)
  deriving DecidableEq, Repr

def Operation.isChange : Operation → Bool
  | .change _ => true
  | _ => false

/-- The number of declarations among operations. -/
def declarations (operations : List Operation) : Nat := operations.countP Operation.isChange

/-- A table with the marks that were taken of it, in order. -/
structure History where
  table : SymbolTable
  marks : List Mark
  deriving DecidableEq, Repr

namespace History

def start : History := { table := .empty, marks := [] }

/-- Performs one operation. There is nothing to go back to where no mark was taken. -/
def perform (history : History) : Operation → History
  | .change made => { history with table := history.table.change made }
  | .mark => { history with marks := history.marks ++ [history.table.mark] }
  | .rollback position =>
      match history.marks[position]? with
      | some mark => { history with table := history.table.rollback mark }
      | none => history

/-- The history of operations on a new table. -/
def run (operations : List Operation) : History := operations.foldl perform start

theorem run_concat (operations : List Operation) (last : Operation) :
    run (operations ++ [last]) = (run operations).perform last := by
  simp [run]

/-- A rollback goes to a mark that was taken, if it does anything. -/
theorem perform_rollback (history : History) (position : Nat) :
    history.perform (.rollback position) = history ∨
      ∃ mark ∈ history.marks,
        history.perform (.rollback position) =
          { history with table := history.table.rollback mark } := by
  cases hmark : history.marks[position]? with
  | none => exact .inl (by simp only [perform, hmark])
  | some mark =>
      exact .inr ⟨mark, List.mem_of_getElem? hmark, by simp only [perform, hmark]⟩

theorem reachable_perform {history : History} (h : history.table.Reachable)
    (operation : Operation) : (history.perform operation).table.Reachable := by
  cases operation with
  | change made =>
      cases made with
      | declare v => exact h.declare v
      | temporary type span => exact h.temporary type span
  | mark => exact h
  | rollback position =>
      rcases perform_rollback history position with hsame | ⟨mark, -, hback⟩
      · exact hsame.symm ▸ h
      · exact hback.symm ▸ h.rollback mark

theorem reachable_run (operations : List Operation) : (run operations).table.Reachable := by
  induction operations using List.reverseRecOn with
  | nil => exact .empty
  | append_singleton operations last ih =>
      rw [run_concat]
      exact reachable_perform ih last

end History

/-- The name under which a change declares a variable. -/
def Change.name (table : SymbolTable) : Change → String
  | .declare v => v.name
  | .temporary .. => temporaryName table.freeNumber

theorem length_change (table : SymbolTable) (made : Change) :
    (table.change made).declared.length = table.declared.length + 1 := by
  cases made <;> simp [change, freshTemporary, declare]

theorem contains_change (table : SymbolTable) (made : Change) (name : String) :
    (table.change made).contains name = true ↔
      table.contains name = true ∨ name = made.name table := by
  cases made with
  | declare v => exact contains_declare table v name
  | temporary type span =>
      exact contains_declare { table with counter := table.freeNumber + 1 } _ name

/-- The numbers below `counter` have all been names of variables. -/
def NumbersUsed (used : List String) (counter : Nat) : Prop :=
  ∀ number < counter, temporaryName number ∈ used

theorem NumbersUsed.mono {used used' : List String} {counter : Nat} (h : NumbersUsed used counter)
    (hsub : used ⊆ used') : NumbersUsed used' counter :=
  fun number hlt => hsub (h number hlt)

theorem NumbersUsed.le_length {used : List String} {counter : Nat} (h : NumbersUsed used counter) :
    counter ≤ used.length := by
  have hnodup : ((List.range counter).map temporaryName).Nodup :=
    List.nodup_range.map temporaryName_injective
  have hsub : (List.range counter).map temporaryName ⊆ used := by
    intro name hname
    obtain ⟨number, hmem, rfl⟩ := List.mem_map.mp hname
    exact h number (List.mem_range.mp hmem)
  simpa using (hnodup.subperm hsub).length_le

/-- The counter passes over numbers that are taken, and over the one that it takes. -/
theorem NumbersUsed.change {table : SymbolTable} {used : List String}
    (h : NumbersUsed used table.counter)
    (hnames : ∀ name, table.contains name = true → name ∈ used) (made : Change) :
    NumbersUsed (used ++ [made.name table]) (table.change made).counter := by
  cases made with
  | declare v => exact h.mono (List.subset_append_left _ _)
  | temporary type span =>
      intro number hlt
      have hle : number ≤ table.freeNumber := Nat.le_of_lt_succ hlt
      rcases Nat.lt_or_ge number table.counter with hold | hnew
      · exact List.mem_append_left _ (h number hold)
      · rcases Nat.lt_or_eq_of_le hle with hpassed | rfl
        · have htaken := (freeNumber_first table).2 number hnew hpassed
          exact List.mem_append_left _ (hnames _ htaken)
        · exact List.mem_append_right _ (List.mem_singleton.mpr rfl)

namespace History

/-- Every name and number that the history could come back to has been the name of one of the
variables that were declared. -/
structure Accounts (used : List String) (history : History) : Prop where
  length : history.table.declared.length ≤ used.length
  names : ∀ name, history.table.contains name = true → name ∈ used
  counter : NumbersUsed used history.table.counter
  marks : ∀ mark ∈ history.marks, NumbersUsed used mark.counter

namespace Accounts

variable {used : List String} {history : History}

theorem start : Accounts [] start where
  length := Nat.le_refl 0
  names name h := by cases h
  counter number h := by cases h
  marks mark h := by cases h

theorem change (h : Accounts used history) (made : Change) :
    Accounts (used ++ [made.name history.table]) (history.perform (.change made)) where
  length := by
    have hlength := h.length
    simp only [perform, length_change, List.length_append, List.length_singleton]
    omega
  names name hname := by
    rcases (contains_change history.table made name).mp hname with hold | rfl
    · exact List.mem_append_left _ (h.names name hold)
    · exact List.mem_append_right _ (List.mem_singleton.mpr rfl)
  counter := h.counter.change h.names made
  marks mark hmem := (h.marks mark hmem).mono (List.subset_append_left _ _)

theorem mark (h : Accounts used history) : Accounts used (history.perform .mark) where
  length := h.length
  names := h.names
  counter := h.counter
  marks mark hmem := by
    rcases List.mem_append.mp hmem with hold | hnew
    · exact h.marks mark hold
    · obtain rfl := List.mem_singleton.mp hnew
      exact h.counter

theorem rollback (h : Accounts used history) (position : Nat) :
    Accounts used (history.perform (.rollback position)) := by
  rcases perform_rollback history position with hsame | ⟨mark, hmem, hback⟩
  · exact hsame.symm ▸ h
  · rw [hback]
    refine ⟨?_, fun name hname => h.names name ?_, h.marks mark hmem, h.marks⟩
    · have hshort : (history.table.rollback mark).declared.length ≤
          history.table.declared.length :=
        List.length_take_le' mark.length history.table.declared.entries
      exact Nat.le_trans hshort h.length
    · obtain ⟨entry, hentry, hname⟩ := List.any_eq_true.mp hname
      exact List.any_eq_true.mpr ⟨entry, (List.mem_filter.mp hentry).1, hname⟩

end Accounts

/-- A history accounts for its names and numbers by as many names as declarations were made. -/
theorem run_accounts (operations : List Operation) :
    ∃ used, used.length = declarations operations ∧ Accounts used (run operations) := by
  induction operations using List.reverseRecOn with
  | nil => exact ⟨[], rfl, .start⟩
  | append_singleton operations last ih =>
      obtain ⟨used, hlength, haccounts⟩ := ih
      rw [run_concat, declarations, List.countP_append, ← declarations]
      cases last with
      | change made =>
          exact ⟨_, by simp [hlength, Operation.isChange], haccounts.change made⟩
      | mark => exact ⟨used, by simp [hlength, Operation.isChange], haccounts.mark⟩
      | rollback position =>
          exact ⟨used, by simp [hlength, Operation.isChange], haccounts.rollback position⟩

end History

theorem WellFormed.contains_of_lookup_none {table : SymbolTable} (h : table.WellFormed)
    {name : String} (hnone : table.lookup name = .ok none) : table.contains name = false := by
  refine Bool.eq_false_iff.mpr fun hbound => ?_
  obtain ⟨v, hv, -⟩ := h.lookup_of_contains hbound
  simp [hnone] at hv

/-- Whatever is done to a table, each name is bound to a stored variable of that name: looking a
name up ends in no fault and finds a variable of this name exactly if the name is bound. A fresh
temporary has a name that was not bound, and is found under it. Neither the ids nor the counter
get ahead of the number of declarations. -/
theorem History.run_consistent (operations : List Operation) :
    let table := (History.run operations).table
    (∀ entry ∈ table.names, entry.2 < table.declared.length ∧
      ∃ v, table.declared.get entry.2 = .ok v ∧ v.name = entry.1) ∧
    (∀ name, table.contains name = false ∧ table.lookup name = .ok none ∨
      table.contains name = true ∧ ∃ v, table.lookup name = .ok (some v) ∧ v.name = name) ∧
    (∀ (c : Context) (name : String) (span : Span),
      table.contains name = false ∧ { c with symbols := table }.getVariable name span =
        .error (.rejected { cause := .undeclaredVariable name, span }) ∨
      table.contains name = true ∧ ∃ v, { c with symbols := table }.getVariable name span = .ok v ∧
        v.name = name) ∧
    (∀ type span, table.contains (table.freshTemporary type span).1.name = false ∧
      (table.freshTemporary type span).2.lookup (table.freshTemporary type span).1.name =
        .ok (some (table.freshTemporary type span).1)) ∧
    table.declared.length ≤ declarations operations ∧
    table.counter ≤ declarations operations := by
  intro table
  have hwell : table.WellFormed := (reachable_run operations).wellFormed
  have hlookup (name : String) : table.contains name = false ∧ table.lookup name = .ok none ∨
      table.contains name = true ∧ ∃ v, table.lookup name = .ok (some v) ∧ v.name = name := by
    rcases hwell.lookup_cases name with hnone | ⟨v, hv, hname⟩
    · exact .inl ⟨hwell.contains_of_lookup_none hnone, hnone⟩
    · exact .inr ⟨contains_of_lookup hv, v, hv, hname⟩
  obtain ⟨used, hlength, haccounts⟩ := run_accounts operations
  refine ⟨fun entry hmem => ⟨hwell.id_lt_length hmem, hwell entry hmem⟩, hlookup, ?_, ?_,
    hlength ▸ haccounts.length, hlength ▸ haccounts.counter.le_length⟩
  · intro c name span
    rcases hlookup name with ⟨hfree, hnone⟩ | ⟨hbound, v, hv, hname⟩
    · exact .inl ⟨hfree, by simp only [Context.getVariable, hnone]⟩
    · exact .inr ⟨hbound, v, by simp only [Context.getVariable, hv], hname⟩
  · intro type span
    exact ⟨contains_freeNumber table, lookup_freshTemporary table type span⟩

/-- The second mark is taken two temporaries after the first and used after the first: it is
longer than the store by then, and puts the counter ahead. `x` has been declared again. -/
def staleRollback : List Operation :=
  [.change (.declare (.declare "x" .long .parameter .synthetic)), .mark,
    .change (.temporary .dynamic .synthetic), .change (.temporary .dynamic .synthetic), .mark,
    .rollback 0, .change (.declare (.declare "x" .array .localSlot .synthetic)), .rollback 1]

theorem History.run_consistent_stale :
    (History.run staleRollback).table.mark = { length := 2, counter := 2 } ∧
    (History.run staleRollback).table.lookup "x" =
      .ok (some (.declare "x" .array .localSlot .synthetic)) ∧
    (History.run staleRollback).table.contains "_2" = false ∧
    (History.run staleRollback).table.counter ≤ 4 := by
  obtain ⟨-, -, -, hfresh, -, hcounter⟩ := History.run_consistent staleRollback
  have hname : ((History.run staleRollback).table.freshTemporary .dynamic .synthetic).1.name =
      "_2" := by
    decide +kernel
  have hfree := (hfresh .dynamic .synthetic).1
  rw [hname] at hfree
  exact ⟨by decide +kernel, by decide +kernel, hfree, hcounter⟩

end AppendLowering.SymbolTable
