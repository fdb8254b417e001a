import AppendLowering.Proofs.Symbol.Table
import Mathlib.Data.List.Induction
import Mathlib.Data.List.Nodup

/-!
# Going back over declarations

A mark remembers how many variables a table holds and where its counter
stands, but not the names. Going back to it restores the store and the counter,
whatever was declared since. Names are found as before, except those that were
declared again: the older binding of such a name is not restored.
-/

namespace AppendLowering

namespace Bindings

variable {names : Bindings}

/-- No name is bound twice. -/
def Distinct (names : Bindings) : Prop := (names.map Prod.fst).Nodup

namespace Distinct

theorem filter (h : names.Distinct) (keep : String × Nat → Bool) :
    Distinct (List.filter keep names) :=
  List.Nodup.sublist (List.filter_sublist.map Prod.fst) h

theorem bind (h : names.Distinct) (name : String) (id : Nat) : (names.bind name id).Distinct := by
  rw [Distinct, Bindings.bind, List.map_append]
  refine (h.filter _).append (List.nodup_singleton name) ?_
  intro key hkept hname
  obtain ⟨entry, hentry, rfl⟩ := List.mem_map.mp hkept
  have hother : entry.1 ≠ name := by simpa using (List.mem_filter.mp hentry).2
  exact hother (by simpa using hname)

/-- Dropping the newer bindings leaves those of the other names alone. -/
theorem find?_below (h : names.Distinct) (limit : Nat) (name : String) :
    (names.below limit).find? name = (names.find? name).filter (· < limit) := by
  induction names with
  | nil => rfl
  | cons entry rest ih =>
      obtain ⟨key, id⟩ := entry
      obtain ⟨hkey, hrest⟩ : key ∉ rest.map Prod.fst ∧ Distinct rest := List.nodup_cons.mp h
      have ih := ih hrest
      simp only [below, find?] at ih ⊢
      by_cases hname : name = key
      · subst hname
        have habsent : List.lookup name (rest.filter fun entry => entry.2 < limit) = none := by
          refine find?_eq_none fun entry hmem heq => hkey ?_
          exact heq ▸ List.mem_map_of_mem (List.mem_filter.mp hmem).1
        by_cases hlt : id < limit
        · simp [hlt, Option.filter_some]
        · simp [hlt, habsent, Option.filter_some]
      · have hne : (name == key) = false := by simpa using hname
        by_cases hlt : id < limit
        · simpa [hlt, List.lookup_cons, hne] using ih
        · simpa [hlt, List.lookup_cons, hne] using ih

end Distinct

end Bindings

namespace SymbolTable

/-- The tables that the operations lead to. Marks need not have been taken from the table that
they are applied to. -/
inductive Reachable : SymbolTable → Prop
  | empty : Reachable .empty
  | declare {table} (h : Reachable table) (v : Variable) : Reachable (table.declare v)
  | temporary {table} (h : Reachable table) (type : DataType) (span : Span) :
      Reachable (table.freshTemporary type span).2
  | rollback {table} (h : Reachable table) (mark : Mark) : Reachable (table.rollback mark)

namespace Reachable

variable {table : SymbolTable}

theorem wellFormed (h : table.Reachable) : table.WellFormed := by
  induction h with
  | empty => exact .empty
  | declare _ v ih => exact ih.declare v
  | temporary _ type span ih => exact ih.freshTemporary type span
  | rollback _ mark ih => exact ih.rollback mark

theorem distinct (h : table.Reachable) : table.names.Distinct := by
  induction h with
  | empty => exact List.nodup_nil
  | declare _ v ih => exact ih.bind v.name _
  | temporary _ type span ih => exact ih.bind _ _
  | rollback _ mark ih => exact ih.filter _

end Reachable

/-- A declaration, of a variable or of a fresh temporary. -/
inductive Change where
  | declare (v : Variable)
  | temporary (type : DataType) (span : Span)
  deriving DecidableEq, Repr

/-- Whether the change declares a variable of the given name. -/
def Change.declares (name : String) : Change → Bool
  | .declare v => v.name == name
  | .temporary .. => false

def change (table : SymbolTable) : Change → SymbolTable
  | .declare v => table.declare v
  | .temporary type span => (table.freshTemporary type span).2

/-- The table after changes, the first of them being made first. -/
def changeAll (table : SymbolTable) (changes : List Change) : SymbolTable :=
  changes.foldl change table

theorem changeAll_concat (table : SymbolTable) (changes : List Change) (last : Change) :
    table.changeAll (changes ++ [last]) = (table.changeAll changes).change last := by
  simp [changeAll]

theorem Reachable.changeAll {table : SymbolTable} (h : table.Reachable) (changes : List Change) :
    (table.changeAll changes).Reachable := by
  induction changes using List.reverseRecOn with
  | nil => exact h
  | append_singleton changes last ih =>
      rw [changeAll_concat]
      cases last with
      | declare v => exact ih.declare v
      | temporary type span => exact ih.temporary type span

theorem declared_changeAll (table : SymbolTable) (changes : List Change) :
    ∃ added, (table.changeAll changes).declared.entries = table.declared.entries ++ added := by
  induction changes using List.reverseRecOn with
  | nil => exact ⟨[], by simp [changeAll]⟩
  | append_singleton changes last ih =>
      obtain ⟨added, hadded⟩ := ih
      rw [changeAll_concat]
      cases last with
      | declare v => exact ⟨added ++ [v], by simp [change, SymbolTable.declare, hadded]⟩
      | temporary type span =>
          exact ⟨added ++ [(freshTemporary (table.changeAll changes) type span).1],
            by simp [change, freshTemporary, SymbolTable.declare, hadded]⟩

theorem find?_freeNumber (table : SymbolTable) :
    table.names.find? (temporaryName table.freeNumber) = none := by
  cases hfind : table.names.find? (temporaryName table.freeNumber) with
  | none => rfl
  | some id =>
      have htaken : table.contains (temporaryName table.freeNumber) = true :=
        Bindings.contains_iff.mpr ⟨id, hfind⟩
      simp [contains_freeNumber] at htaken

/-- Of the bindings that a table had, changes leave those of the names that they do not declare. -/
theorem find?_changeAll (table : SymbolTable) (h : table.WellFormed) (changes : List Change)
    (name : String) :
    ((table.changeAll changes).names.find? name).filter (· < table.declared.length) =
      if changes.any (·.declares name) then none else table.names.find? name := by
  induction changes using List.reverseRecOn with
  | nil =>
      cases hfind : table.names.find? name with
      | none => simp [changeAll, hfind]
      | some id =>
          have hlt := h.id_lt_length (Bindings.mem_of_find? hfind)
          simpa [changeAll, hfind] using hlt
  | append_singleton changes last ih =>
      have hnew : Option.filter (· < table.declared.length)
          (some (table.changeAll changes).declared.length) = none := by
        obtain ⟨added, hadded⟩ := declared_changeAll table changes
        have hlength : table.declared.length ≤ (table.changeAll changes).declared.length := by
          simp [Store.length, hadded]
        simp [Option.filter_some, hlength]
      rw [changeAll_concat, List.any_append]
      cases last with
      | declare v =>
          simp only [change, SymbolTable.declare, Bindings.find?_bind]
          by_cases hname : name = v.name
          · simp [hname, hnew, Change.declares]
          · simpa [hname, Change.declares, Ne.symm hname] using ih
      | temporary type span =>
          simp only [change, freshTemporary, SymbolTable.declare, Bindings.find?_bind]
          by_cases hname : name = temporaryName (table.changeAll changes).freeNumber
          · -- the name was free, so the table has no binding of it to lose
            rw [hname, find?_freeNumber] at ih
            simp only [Variable.declare, hname, if_true, hnew]
            simpa [Change.declares] using ih
          · simpa [Variable.declare, hname, Change.declares] using ih

/-- Going back to a mark restores the store and the counter, and every name means what it meant
when the mark was taken, except that a name that was declared since means nothing. -/
theorem rollback_changeAll (table : SymbolTable) (h : table.Reachable) (changes : List Change) :
    ((table.changeAll changes).rollback table.mark).declared = table.declared ∧
    ((table.changeAll changes).rollback table.mark).counter = table.counter ∧
    ∀ name, ((table.changeAll changes).rollback table.mark).lookup name =
      if changes.any (·.declares name) then .ok none else table.lookup name := by
  obtain ⟨added, hadded⟩ := declared_changeAll table changes
  have hdeclared : ((table.changeAll changes).rollback table.mark).declared = table.declared := by
    simp only [rollback, mark, Store.truncate, hadded, Store.length, List.take_left]
  refine ⟨hdeclared, rfl, fun name => ?_⟩
  have hfind : ((table.changeAll changes).rollback table.mark).names.find? name =
      if changes.any (·.declares name) then none else table.names.find? name := by
    rw [← find?_changeAll table h.wellFormed]
    exact (h.changeAll changes).distinct.find?_below _ name
  rw [lookup, hfind, hdeclared, lookup]
  split <;> simp_all

/-- A table of two variables. -/
def pairTable : SymbolTable :=
  .ofList [.declare "x" .long .parameter .synthetic, .declare "y" .array .parameter .synthetic]

theorem pairTable_reachable : pairTable.Reachable :=
  (Reachable.empty.declare _).declare _

/-- A temporary, and then a second variable `x`. -/
def redeclaring : List Change :=
  [.temporary .dynamic .synthetic, .declare (.declare "x" .dynamic .localSlot .synthetic)]

theorem rollback_changeAll_pair :
    ((pairTable.changeAll redeclaring).rollback pairTable.mark).lookup "x" = .ok none ∧
    ((pairTable.changeAll redeclaring).rollback pairTable.mark).lookup "y" =
      pairTable.lookup "y" := by
  obtain ⟨-, -, hlookup⟩ := rollback_changeAll pairTable pairTable_reachable redeclaring
  exact ⟨(hlookup "x").trans (if_pos (by decide)), (hlookup "y").trans (if_neg (by decide))⟩

/-- Going back does not bring back what a name meant before it was declared again. -/
theorem rollback_forgets_redeclared :
    pairTable.Reachable ∧
    pairTable.lookup "x" = .ok (some (.declare "x" .long .parameter .synthetic)) ∧
    ((pairTable.changeAll redeclaring).rollback pairTable.mark).lookup "x" = .ok none :=
  ⟨pairTable_reachable, by decide +kernel, by decide +kernel⟩

end SymbolTable

end AppendLowering
