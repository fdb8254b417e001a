import AppendLowering.Proofs.Symbol.Table

/-!
# The numbers of temporaries

A fresh temporary takes the first free number from the counter on. Over a table
of declared variables the temporaries therefore have the numbers whose names
these variables leave free, in increasing order and without gaps.
-/

namespace AppendLowering.SymbolTable

variable {vs temporaries : List Variable} {table : SymbolTable} {name : String}

theorem firstFree_first (names : Bindings) (start : Nat) :
    start ≤ firstFree names start ∧
      ∀ number, start ≤ number → number < firstFree names start →
        names.contains (temporaryName number) = true := by
  fun_induction firstFree names start with
  | case1 start htaken ih =>
      refine ⟨Nat.le_of_succ_le ih.1, fun number hle hlt => ?_⟩
      rcases Nat.eq_or_lt_of_le hle with rfl | hnext
      · exact htaken
      · exact ih.2 number hnext hlt
  | case2 start hfree => exact ⟨Nat.le_refl start, fun number hle hlt => by omega⟩

/-- The search for a free number passes over taken ones only. -/
theorem freeNumber_first (table : SymbolTable) :
    table.counter ≤ table.freeNumber ∧
      ∀ number, table.counter ≤ number → number < table.freeNumber →
        table.contains (temporaryName number) = true :=
  firstFree_first table.names table.counter

theorem contains_declare (table : SymbolTable) (v : Variable) (name : String) :
    (table.declare v).contains name = true ↔ table.contains name = true ∨ name = v.name := by
  simp only [contains, Bindings.contains_iff, declare, Bindings.find?_bind]
  by_cases hname : name = v.name <;> simp [hname]

theorem declared_foldl (vs : List Variable) (table : SymbolTable) :
    (vs.foldl declare table).declared.entries = table.declared.entries ++ vs := by
  induction vs generalizing table with
  | nil => simp
  | cons v rest ih => simp [ih, declare]

theorem contains_foldl (vs : List Variable) (table : SymbolTable) (name : String) :
    (vs.foldl declare table).contains name = true ↔
      table.contains name = true ∨ name ∈ vs.map Variable.name := by
  induction vs generalizing table with
  | nil => simp
  | cons v rest ih => simp [ih, contains_declare, or_assoc]

theorem declared_ofList (vs : List Variable) : (ofList vs).declared.entries = vs := by
  rw [ofList, declared_foldl]
  rfl

theorem contains_ofList (vs : List Variable) (name : String) :
    (ofList vs).contains name = true ↔ name ∈ vs.map Variable.name := by
  rw [ofList, contains_foldl]
  simp [contains, empty, Bindings.contains]

/-- A declared name means a variable that was declared under it. -/
theorem lookup_ofList {v : Variable} (h : v ∈ vs) :
    ∃ w ∈ vs, w.name = v.name ∧ (ofList vs).lookup v.name = .ok (some w) := by
  have hbound := (contains_ofList vs v.name).mpr (List.mem_map_of_mem h)
  obtain ⟨w, hw, hname⟩ := (WellFormed.ofList vs).lookup_of_contains hbound
  have hmem := mem_of_lookup hw
  rw [declared_ofList] at hmem
  exact ⟨w, hmem, hname, hw⟩

/-- Any other name means nothing. -/
theorem lookup_ofList_eq_none (h : name ∉ vs.map Variable.name) :
    (ofList vs).lookup name = .ok none := by
  rcases (WellFormed.ofList vs).lookup_cases name with hnone | ⟨w, hw, -⟩
  · exact hnone
  · exact absurd ((contains_ofList vs name).mp (contains_of_lookup hw)) h

theorem counter_ofList (vs : List Variable) : (ofList vs).counter = 0 := by
  suffices hfold : ∀ table : SymbolTable, (vs.foldl declare table).counter = table.counter from
    hfold empty
  induction vs with
  | nil => exact fun _ => rfl
  | cons v rest ih => exact fun table => ih (table.declare v)

/-- The numbers below a bound whose names the variables leave free. -/
def freeNumbers (vs : List Variable) (bound : Nat) : List Nat :=
  (List.range bound).filter fun number => temporaryName number ∉ vs.map Variable.name

/-- The next free number is the only one between two bounds. -/
theorem freeNumbers_succ {bound next : Nat} (hle : bound ≤ next)
    (htaken : ∀ number, bound ≤ number → number < next →
      temporaryName number ∈ vs.map Variable.name)
    (hfree : temporaryName next ∉ vs.map Variable.name) :
    freeNumbers vs (next + 1) = freeNumbers vs bound ++ [next] := by
  obtain ⟨skipped, rfl⟩ := Nat.exists_eq_add_of_le hle
  have hskipped : ((List.range skipped).map (bound + ·)).filter
      (fun number => temporaryName number ∉ vs.map Variable.name) = [] := by
    refine List.filter_eq_nil_iff.mpr fun number hmem => ?_
    obtain ⟨offset, hoffset, rfl⟩ := List.mem_map.mp hmem
    have hlt := List.mem_range.mp hoffset
    simpa using htaken (bound + offset) (by omega) (by omega)
  have hnext : [bound + skipped].filter
      (fun number => temporaryName number ∉ vs.map Variable.name) = [bound + skipped] := by
    simpa using hfree
  rw [freeNumbers, List.range_succ, List.filter_append, List.range_add, List.filter_append,
    hskipped, hnext, List.append_nil, freeNumbers]

/-- The table holds the declared variables, which keep their meaning, and after them temporaries
that take the free numbers in order. -/
structure Numbered (vs temporaries : List Variable) (table : SymbolTable) : Prop where
  declared : table.declared.entries = vs ++ temporaries
  lookup : ∀ v ∈ vs, table.lookup v.name = (ofList vs).lookup v.name
  contains : ∀ name, table.contains name = true ↔ name ∈ (vs ++ temporaries).map Variable.name
  temporary : ∀ v ∈ temporaries,
    v.type = .dynamic ∧ v.initialized = true ∧ v.storage = .temporary
  names : temporaries.map Variable.name = (freeNumbers vs table.counter).map temporaryName

namespace Numbered

theorem ofList (vs : List Variable) : Numbered vs [] (ofList vs) where
  declared := by simp [declared_ofList]
  lookup _ _ := rfl
  contains name := by simp [contains_ofList]
  temporary := by simp
  names := by simp [freeNumbers, counter_ofList]

/-- A number from the counter on is taken by a declared variable, if at all. -/
theorem taken (h : Numbered vs temporaries table) {number : Nat} (hle : table.counter ≤ number) :
    table.contains (temporaryName number) = true ↔
      temporaryName number ∈ vs.map Variable.name := by
  have hother : temporaryName number ∉ temporaries.map Variable.name := by
    rw [h.names]
    intro hmem
    obtain ⟨other, hother, hname⟩ := List.mem_map.mp hmem
    have hlt := List.mem_range.mp (List.mem_filter.mp hother).1
    have hsame := temporaryName_injective hname
    omega
  rw [h.contains, List.map_append, List.mem_append, or_iff_left hother]

theorem freshTemporary (h : Numbered vs temporaries table) (hwell : table.WellFormed)
    (span : Span) :
    Numbered vs (temporaries ++ [(table.freshTemporary .dynamic span).1])
      (table.freshTemporary .dynamic span).2 where
  declared := by simp [SymbolTable.freshTemporary, declare, h.declared]
  lookup v hv := by
    have hbound : table.contains v.name = true :=
      (h.contains v.name).mpr (List.mem_map_of_mem (List.mem_append_left _ hv))
    obtain ⟨w, hlookup, -⟩ := hwell.lookup_of_contains hbound
    have hextends := Extends.freshTemporary table .dynamic span
    rw [hextends.lookup_eq hwell (.inl (by simp [hlookup])), h.lookup v hv]
  contains name := by
    rw [SymbolTable.freshTemporary, contains_declare]
    change table.contains name = true ∨ _ ↔ _
    rw [h.contains]
    simp [or_assoc]
  temporary := by
    intro v hv
    rcases List.mem_append.mp hv with hold | hnew
    · exact h.temporary v hold
    · obtain rfl := List.mem_singleton.mp hnew
      exact ⟨rfl, rfl, rfl⟩
  names := by
    obtain ⟨hle, hpassed⟩ := freeNumber_first table
    have hfree : temporaryName table.freeNumber ∉ vs.map Variable.name := by
      rw [← h.taken hle, contains_freeNumber]
      simp
    have hsucc := freeNumbers_succ hle
      (fun number hnumber hlt => (h.taken hnumber).mp (hpassed number hnumber hlt)) hfree
    rw [List.map_append, h.names]
    simp [SymbolTable.freshTemporary, declare, Variable.declare, hsucc]

/-- What a table finds under a name is a declared variable or a temporary. -/
theorem lookup_cases (h : Numbered vs temporaries table) (hwell : table.WellFormed) {v : Variable}
    (hv : table.lookup name = .ok (some v)) :
    (name ∈ vs.map Variable.name ∧ (SymbolTable.ofList vs).lookup name = .ok (some v)) ∨
      (name ∉ vs.map Variable.name ∧ v ∈ temporaries ∧ v.name = name) := by
  by_cases hname : name ∈ vs.map Variable.name
  · obtain ⟨w, hw, rfl⟩ := List.mem_map.mp hname
    exact .inl ⟨hname, (h.lookup w hw).symm.trans hv⟩
  · have hvname : v.name = name := by
      rcases hwell.lookup_cases name with hnone | ⟨w, hw, hwname⟩
      · simp [hnone] at hv
      · rw [hw] at hv
        cases hv
        exact hwname
    have hmem := mem_of_lookup hv
    rw [h.declared, List.mem_append] at hmem
    refine .inr ⟨hname, hmem.resolve_left fun hold => hname ?_, hvname⟩
    exact hvname ▸ List.mem_map_of_mem hold

end Numbered

end AppendLowering.SymbolTable
