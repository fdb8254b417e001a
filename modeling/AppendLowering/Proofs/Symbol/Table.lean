import AppendLowering.Symbol.Table

/-!
# Symbol tables that stay consistent

A table is well formed when each name is bound to a stored variable of that
name. Declarations and rollbacks keep this, so no lookup meets an unknown id.
Temporaries only ever add to a table, under names that were free; cutting the
table back to its mark therefore gives the old table again.
-/

namespace AppendLowering

namespace Bindings

theorem find?_append (a b : Bindings) (name : String) :
    Bindings.find? (a ++ b) name = (a.find? name).or (b.find? name) :=
  List.lookup_append

theorem find?_eq_none {names : Bindings} {name : String}
    (h : ∀ entry ∈ names, entry.1 ≠ name) : names.find? name = none := by
  refine List.lookup_eq_none_iff.mpr fun entry hmem => ?_
  simpa using (h entry hmem).symm

theorem mem_of_find? {names : Bindings} {name : String} {id : Nat}
    (h : names.find? name = some id) : (name, id) ∈ names := by
  obtain ⟨before, after, heq, -⟩ := List.lookup_eq_some_iff.mp h
  simp [heq]

theorem contains_iff {names : Bindings} {name : String} :
    names.contains name = true ↔ ∃ id, names.find? name = some id := by
  constructor
  · intro h
    cases hfind : names.find? name with
    | some id => exact ⟨id, rfl⟩
    | none =>
        obtain ⟨entry, hmem, hname⟩ := List.any_eq_true.mp h
        have hother := List.lookup_eq_none_iff.mp hfind entry hmem
        simp_all
  · rintro ⟨id, hfind⟩
    exact List.any_eq_true.mpr ⟨(name, id), mem_of_find? hfind, by simp⟩

theorem mem_bind {names : Bindings} {name : String} {id : Nat} {entry : String × Nat}
    (h : entry ∈ names.bind name id) : entry ∈ names ∨ entry = (name, id) := by
  rcases List.mem_append.mp h with hold | hnew
  · exact Or.inl (List.mem_filter.mp hold).1
  · exact Or.inr (by simpa using hnew)

end Bindings

namespace SymbolTable

/-- The search ends at a free name. -/
theorem contains_firstFree (names : Bindings) (start : Nat) :
    names.contains (temporaryName (firstFree names start)) = false := by
  fun_induction firstFree names start with
  | case1 number htaken ih => exact ih
  | case2 number hfree => simpa using hfree

/-- The name of the next temporary is free. -/
theorem contains_freeNumber (table : SymbolTable) :
    table.contains (temporaryName table.freeNumber) = false :=
  contains_firstFree table.names table.counter

theorem names_freshTemporary (table : SymbolTable) (type : DataType) (span : Span) :
    (table.freshTemporary type span).2.names =
      table.names ++ [(temporaryName table.freeNumber, table.declared.length)] :=
  Bindings.bind_of_fresh (contains_freeNumber table) _

theorem find?_freshTemporary (table : SymbolTable) (type : DataType) (span : Span) (name : String) :
    (table.freshTemporary type span).2.names.find? name =
      if name = temporaryName table.freeNumber then some table.declared.length
      else table.names.find? name :=
  Bindings.find?_bind table.names (temporaryName table.freeNumber) name table.declared.length

theorem lookup_freshTemporary (table : SymbolTable) (type : DataType) (span : Span) :
    (table.freshTemporary type span).2.lookup (table.freshTemporary type span).1.name =
      .ok (some (table.freshTemporary type span).1) := by
  simp [freshTemporary, declare, lookup, Bindings.find?_bind, Store.get_push_length, Except.map]

/-- What is found under any other name is found there still. -/
theorem lookup_freshTemporary_of_ne {table : SymbolTable} {name : String} {found : Option Variable}
    (type : DataType) (span : Span) (hname : name ≠ temporaryName table.freeNumber)
    (h : table.lookup name = .ok found) :
    (table.freshTemporary type span).2.lookup name = .ok found := by
  have hsame : (table.freshTemporary type span).2.names.find? name = table.names.find? name := by
    rw [find?_freshTemporary, if_neg hname]
  cases hfind : table.names.find? name with
  | none =>
      rw [← h, lookup, lookup, hsame, hfind]
  | some id =>
      cases hget : table.declared.get id with
      | error fault => simp [lookup, hfind, hget, Except.map] at h
      | ok v =>
          have hkept : (table.freshTemporary type span).2.declared.get id = .ok v :=
            Store.get_push_of_get hget _
          simp only [lookup, hfind, hget] at h
          simp only [lookup, hsame, hfind, hkept, h]

theorem contains_of_lookup {table : SymbolTable} {name : String} {v : Variable}
    (h : table.lookup name = .ok (some v)) : table.contains name = true := by
  refine Bindings.contains_iff.mpr ?_
  cases hfind : table.names.find? name with
  | some id => exact ⟨id, rfl⟩
  | none => simp [lookup, hfind] at h

theorem mem_of_lookup {table : SymbolTable} {name : String} {v : Variable}
    (h : table.lookup name = .ok (some v)) : v ∈ table.declared.entries := by
  cases hfind : table.names.find? name with
  | none => simp [lookup, hfind] at h
  | some id =>
      cases hget : table.declared.get id with
      | error fault => simp [lookup, hfind, hget, Except.map] at h
      | ok w =>
          obtain rfl : w = v := by simpa [lookup, hfind, hget, Except.map] using h
          exact List.mem_of_getElem? (Store.get_eq_ok_iff.mp hget)

/-- Every name is bound to a stored variable of that name. -/
def WellFormed (table : SymbolTable) : Prop :=
  ∀ entry ∈ table.names, ∃ v, table.declared.get entry.2 = .ok v ∧ v.name = entry.1

namespace WellFormed

variable {table : SymbolTable}

theorem empty : SymbolTable.empty.WellFormed := by
  intro entry hmem
  cases hmem

theorem declare (h : table.WellFormed) (v : Variable) : (table.declare v).WellFormed := by
  intro entry hmem
  rcases Bindings.mem_bind hmem with hold | rfl
  · obtain ⟨w, hget, hname⟩ := h entry hold
    exact ⟨w, Store.get_push_of_get hget v, hname⟩
  · exact ⟨v, Store.get_push_length _ _, rfl⟩

theorem ofList (vs : List Variable) : (SymbolTable.ofList vs).WellFormed := by
  suffices hfold : ∀ table : SymbolTable, table.WellFormed →
      (vs.foldl .declare table).WellFormed from hfold .empty .empty
  induction vs with
  | nil => exact fun _ h => h
  | cons v rest ih => exact fun _ h => ih _ (h.declare v)

/-- Cutting a table back keeps it consistent, whatever the mark. -/
theorem rollback (h : table.WellFormed) (mark : Mark) : (table.rollback mark).WellFormed := by
  intro entry hmem
  obtain ⟨hold, hlt⟩ := List.mem_filter.mp hmem
  have hlt : entry.2 < mark.length := by simpa using hlt
  obtain ⟨v, hget, hname⟩ := h entry hold
  refine ⟨v, ?_, hname⟩
  rw [Store.get_eq_ok_iff] at hget ⊢
  exact (List.getElem?_take_of_lt hlt).trans hget

theorem freshTemporary (h : table.WellFormed) (type : DataType) (span : Span) :
    (table.freshTemporary type span).2.WellFormed :=
  @declare { table with counter := table.freeNumber + 1 } h _

theorem id_lt_length (h : table.WellFormed) {entry : String × Nat} (hmem : entry ∈ table.names) :
    entry.2 < table.declared.length := by
  obtain ⟨v, hget, -⟩ := h entry hmem
  exact (List.getElem?_eq_some_iff.mp (Store.get_eq_ok_iff.mp hget)).1

/-- A lookup finds nothing or a variable of the name it asks for; it never faults. -/
theorem lookup_cases (h : table.WellFormed) (name : String) :
    table.lookup name = .ok none ∨ ∃ v, table.lookup name = .ok (some v) ∧ v.name = name := by
  cases hfind : table.names.find? name with
  | none => exact Or.inl (by simp [lookup, hfind])
  | some id =>
      obtain ⟨v, hget, hname⟩ := h _ (Bindings.mem_of_find? hfind)
      exact Or.inr ⟨v, by simp [lookup, hfind, hget, Except.map], hname⟩

theorem lookup_of_contains (h : table.WellFormed) {name : String}
    (hname : table.contains name = true) :
    ∃ v, table.lookup name = .ok (some v) ∧ v.name = name := by
  obtain ⟨id, hfind⟩ := Bindings.contains_iff.mp hname
  obtain ⟨v, hget, hv⟩ := h _ (Bindings.mem_of_find? hfind)
  exact ⟨v, by simp [lookup, hfind, hget, Except.map], hv⟩

end WellFormed

/-- `new` has grown out of `old` by temporaries alone. -/
structure Extends (old new : SymbolTable) : Prop where
  declared : ∃ added, new.declared.entries = old.declared.entries ++ added
  names : ∃ added, new.names = old.names ++ added ∧
    ∀ entry ∈ added, old.declared.length ≤ entry.2 ∧ ∃ number, entry.1 = temporaryName number

namespace Extends

variable {old middle new : SymbolTable}

theorem refl (table : SymbolTable) : table.Extends table :=
  ⟨⟨[], by simp⟩, ⟨[], by simp⟩⟩

theorem length_le (h : old.Extends new) : old.declared.length ≤ new.declared.length := by
  obtain ⟨added, hadded⟩ := h.declared
  simp [Store.length, hadded]

theorem trans (first : old.Extends middle) (second : middle.Extends new) : old.Extends new := by
  obtain ⟨vs, hvs⟩ := first.declared
  obtain ⟨ws, hws⟩ := second.declared
  obtain ⟨as, has, hbounds⟩ := first.names
  obtain ⟨bs, hbs, hbounds'⟩ := second.names
  refine ⟨⟨vs ++ ws, by rw [hws, hvs, List.append_assoc]⟩,
    ⟨as ++ bs, by rw [hbs, has, List.append_assoc], fun entry hmem => ?_⟩⟩
  rcases List.mem_append.mp hmem with h | h
  · exact hbounds entry h
  · exact ⟨Nat.le_trans first.length_le (hbounds' entry h).1, (hbounds' entry h).2⟩

theorem freshTemporary (table : SymbolTable) (type : DataType) (span : Span) :
    table.Extends (table.freshTemporary type span).2 := by
  refine ⟨⟨_, rfl⟩, ⟨_, names_freshTemporary table type span, fun entry hmem => ?_⟩⟩
  obtain rfl := List.mem_singleton.mp hmem
  exact ⟨Nat.le_refl _, _, rfl⟩

/-- Going back to a mark undoes every temporary declared since. -/
theorem rollback_mark (h : old.Extends new) (hold : old.WellFormed) :
    new.rollback old.mark = old := by
  obtain ⟨vs, hvs⟩ := h.declared
  obtain ⟨as, has, hbounds⟩ := h.names
  have hkept : old.names.filter (fun entry => entry.2 < old.declared.length) = old.names :=
    List.filter_eq_self.mpr fun entry hmem => by simpa using hold.id_lt_length hmem
  have hdropped : as.filter (fun entry => entry.2 < old.declared.length) = [] :=
    List.filter_eq_nil_iff.mpr fun entry hmem => by simpa using (hbounds entry hmem).1
  have hnames : new.names.below old.declared.length = old.names := by
    rw [Bindings.below, has, List.filter_append, hkept, hdropped, List.append_nil]
  have hdeclared : new.declared.truncate old.declared.length = old.declared := by
    rw [Store.truncate, hvs, Store.length, List.take_left]
  simp only [rollback, mark, hnames, hdeclared]

/-- A name that was bound, or that no temporary can have, means what it meant before. -/
theorem lookup_eq (h : old.Extends new) (hold : old.WellFormed) {name : String}
    (hname : old.lookup name ≠ .ok none ∨ ∀ number, name ≠ temporaryName number) :
    new.lookup name = old.lookup name := by
  obtain ⟨vs, hvs⟩ := h.declared
  obtain ⟨as, has, hbounds⟩ := h.names
  cases hfind : old.names.find? name with
  | some id =>
      have hlt : id < old.declared.entries.length := hold.id_lt_length (Bindings.mem_of_find? hfind)
      have hget : new.declared.get id = old.declared.get id := by
        simp only [Store.get, hvs, List.getElem?_append_left hlt]
      simp [lookup, has, Bindings.find?_append, hfind, hget]
  | none =>
      have hfresh : ∀ number, name ≠ temporaryName number := by
        rcases hname with hbound | hfresh
        · exact absurd (by simp [lookup, hfind]) hbound
        · exact hfresh
      have hadded : Bindings.find? as name = none := by
        refine Bindings.find?_eq_none fun entry hmem heq => ?_
        obtain ⟨number, hnumber⟩ := (hbounds entry hmem).2
        exact hfresh number (heq.symm.trans hnumber)
      simp [lookup, has, Bindings.find?_append, hfind, hadded]

end Extends

end SymbolTable

end AppendLowering
