import AppendLowering.Proofs.Codec.Reading
import AppendLowering.Proofs.Json.Denoted
import AppendLowering.Proofs.Tree.Doubles

/-!
# Documents as texts

A document can be written as a text if its doubles are finite. Spans and the tags of the parts
add a fixed depth; the nesting of array literals adds the rest.
-/

namespace AppendLowering

open Json (Fits Writable FitsWord)

theorem Json.fitsWord_toNat (n : UInt64) : FitsWord n.toNat := by
  have := n.toNat_lt
  exact ⟨by omega, by omega⟩

theorem Json.fitsWord_toInt (n : Int64) : FitsWord n.toInt := by
  have := n.le_toInt
  have := n.toInt_lt
  exact ⟨by omega, by omega⟩

theorem Span.fits_toJson (span : Span) : span.toJson.Fits 1 := by
  have hword (n : UInt32) : (Json.ofUInt32 n).Fits 0 := by
    have := n.toNat_lt
    exact ⟨.int ⟨by omega, by omega⟩, Nat.le_refl 0⟩
  exact Json.fits_object (by simp) (by simp [hword])

/-- A literal is an object with one field, if it is not the null literal. -/
theorem Literal.fits_toJson {literal : Literal} {room : Nat}
    (hfinite : ∀ d, literal = .double d → d.isFinite = true)
    (hroom : literal = .null ∨ 0 < room) : literal.toJson.Fits room := by
  have hfield {kind : String} {value : Json} (hvalue : value.Writable) (hdepth : value.depth = 0)
      (hroom : 0 < room) : (Json.object [(kind, value)]).Fits room := by
    have hfits : (Json.object [(kind, value)]).Fits 1 :=
      Json.fits_object (by simp) (by simp [Fits, hvalue, hdepth])
    exact hfits.mono hroom
  cases literal with
  | int value => exact hfield (.int (Json.fitsWord_toInt value)) rfl (by simpa using hroom)
  | uint value => exact hfield (.int (Json.fitsWord_toNat value)) rfl (by simpa using hroom)
  | long value => exact hfield (.int (Json.fitsWord_toInt value)) rfl (by simpa using hroom)
  | ulong value => exact hfield (.int (Json.fitsWord_toNat value)) rfl (by simpa using hroom)
  | char code =>
      have := code.toNat_lt
      exact hfield (.int ⟨by omega, by omega⟩) rfl (by simpa using hroom)
  | double value => exact hfield (.float (hfinite value rfl)) rfl (by simpa using hroom)
  | bool value => exact hfield (.bool value) rfl (by simpa using hroom)
  | string text => exact hfield (.string text) rfl (by simpa using hroom)
  | null => exact Json.fits_string _

namespace Expr

variable {items : List Expr} {room : Nat}

theorem toJsonList_eq (items : List Expr) : toJsonList items = items.map toJson := by
  induction items with
  | nil => rfl
  | cons item rest ih => rw [toJsonList, ih, List.map_cons]

theorem fits_literal {value : Literal} (span : Span) (h : value.toJson.Fits (room + 1)) :
    (Expr.literal value span).toJson.Fits (room + 2) := by
  have hspan := span.fits_toJson.mono (Nat.le_add_left 1 room)
  exact Json.fits_object (by simp) (by simp [Json.fits_string, h, hspan])

theorem fits_var (name : String) (span : Span) : (Expr.var name span).toJson.Fits (room + 2) := by
  have hspan := span.fits_toJson.mono (Nat.le_add_left 1 room)
  exact Json.fits_object (by simp) (by simp [Json.fits_string, hspan])

theorem fits_array (span : Span) (h : (Json.array (toJsonList items)).Fits (room + 1)) :
    (Expr.array items span).toJson.Fits (room + 2) := by
  have hspan := span.fits_toJson.mono (Nat.le_add_left 1 room)
  rw [toJson]
  exact Json.fits_object (by simp) (by simp [Json.fits_string, h, hspan])

end Expr

mutual

/-- An expression with finite doubles can be written as a text. -/
theorem Expr.writable_toJson (expr : Expr) (h : ∀ d ∈ expr.doubles, d.isFinite = true) :
    expr.toJson.Writable := by
  cases expr with
  | literal value span =>
      have hvalue : value.toJson.Fits 1 := by
        refine Literal.fits_toJson (fun d hd => ?_) (.inr Nat.one_pos)
        subst hd
        exact h d (by simp [Expr.doubles])
      exact (Expr.fits_literal span hvalue).1
  | var name span =>
      have hfits : (Expr.var name span).toJson.Fits 2 := Expr.fits_var name span
      exact hfits.1
  | array items span =>
      have hspan := span.fits_toJson.1
      have hitems : (Json.array (Expr.toJsonList items)).Writable :=
        .array (Expr.writable_toJsonList items h)
      rw [Expr.toJson]
      exact .object (by simp) (by simp [Writable.string, hitems, hspan])

theorem Expr.writable_toJsonList (items : List Expr)
    (h : ∀ d ∈ Expr.doublesOfAll items, d.isFinite = true) :
    ∀ json ∈ Expr.toJsonList items, json.Writable := by
  cases items with
  | nil => simp [Expr.toJsonList]
  | cons item rest =>
      rw [Expr.doublesOfAll, List.forall_mem_append] at h
      rw [Expr.toJsonList, List.forall_mem_cons]
      exact ⟨Expr.writable_toJson item h.1, Expr.writable_toJsonList rest h.2⟩

end

theorem Target.writable_toJson {target : Target}
    (h : ∀ d ∈ Expr.doublesOfAll target.indexes, d.isFinite = true) :
    target.toJson.Writable := by
  have hindexes : (Json.array (Expr.toJsonList target.indexes)).Writable :=
    .array (Expr.writable_toJsonList target.indexes h)
  unfold toJson
  cases target.container <;> exact .object (by simp) (by simp [Writable.string, hindexes])

theorem Assignment.writable_toJson {assignment : Assignment}
    (h : ∀ d ∈ assignment.doubles, d.isFinite = true) : assignment.toJson.Writable := by
  rw [Assignment.doubles, List.forall_mem_append] at h
  have htarget := Target.writable_toJson h.1
  have hvalue := assignment.value.writable_toJson h.2
  have hspan := assignment.span.fits_toJson.1
  exact .object (by simp) (by simp [htarget, hvalue, hspan])

/-- A statement with finite doubles can be written as a text. -/
theorem Statement.writable_toJson {statement : Statement}
    (h : ∀ d ∈ statement.doubles, d.isFinite = true) : statement.toJson.Writable := by
  have hassignments : (Json.array (statement.assignments.map Assignment.toJson)).Writable := by
    refine .array fun json hjson => ?_
    obtain ⟨assignment, hmem, rfl⟩ := List.mem_map.mp hjson
    exact Assignment.writable_toJson fun d hd => h d (List.mem_flatMap.mpr ⟨assignment, hmem, hd⟩)
  have hspan := statement.span.fits_toJson.1
  exact .object (by simp) (by simp [Writable.string, hassignments, hspan])

theorem Variable.fits_toJson (v : Variable) : v.toJson.Fits 2 := by
  have htype : v.type.toJson.Fits 1 := Json.fits_string _
  have hinitialized : (Json.bool v.initialized).Fits 1 := ⟨.bool _, Nat.zero_le _⟩
  have hstorage : v.storage.toJson.Fits 1 := Json.fits_string _
  have hspan := v.span.fits_toJson
  exact Json.fits_object (by simp)
    (by simp [Json.fits_string, htype, hinitialized, hstorage, hspan])

end AppendLowering
