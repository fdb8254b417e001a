import AppendLowering.Proofs.Codec.Writing

/-!
# Documents that were read

A document that was read from a text, in whatever form, can be written as a text that is read
again. A span that was left out is written, one level below its node. The room for it is always
there: expressions stand at even depths of a statement, and the limit of a text is odd.
-/

namespace AppendLowering

open Json (Fits)

namespace Codec

variable {α : Type} {record : Record} {name : String} {names : List String} {json value : Json}
  {room : Nat} {x : α} {read : Json → Option α}

theorem fits_of_lookup (h : ∀ field ∈ record, field.2.Fits room)
    (hlookup : List.lookup name record = some value) : value.Fits room := by
  induction record with
  | nil => cases hlookup
  | cons field rest ih =>
      rw [List.forall_mem_cons] at h
      obtain ⟨other, first⟩ := field
      by_cases hname : name = other
      · subst hname
        rw [List.lookup_cons_self] at hlookup
        cases hlookup
        exact h.1
      · rw [lookup_cons_of_ne hname] at hlookup
        exact ih h.2 hlookup

theorem fits_of_positional? {items : List Json} (h : ∀ item ∈ items, item.Fits room)
    (hrecord : positional? names items = some record) : ∀ field ∈ record, field.2.Fits room := by
  unfold positional? at hrecord
  split at hrecord
  · cases hrecord
    exact fun field hfield => h _ (List.of_mem_zip hfield).2
  · cases hrecord

theorem fits_of_record? (h : json.Fits room) (hrecord : record? names json = some record) :
    ∃ inner, room = inner + 1 ∧ ∀ field ∈ record, field.2.Fits inner := by
  cases json with
  | object fields =>
      cases hrecord
      exact h.object_fields
  | array items =>
      obtain ⟨inner, hroom, hitems⟩ := h.array_items
      exact ⟨inner, hroom, fits_of_positional? hitems hrecord⟩
  | _ => cases hrecord

/-- A field that is read has a value that fits where the fields fit. -/
theorem exists_of_required (h : ∀ field ∈ record, field.2.Fits room)
    (hread : record.required name read = some x) :
    ∃ value, value.Fits room ∧ read value = some x := by
  obtain ⟨value, hlookup, hvalue⟩ := Option.bind_eq_some_iff.mp hread
  exact ⟨value, fits_of_lookup h hlookup, hvalue⟩

/-- What is written for a value fits into the room of what it was read from. -/
def Keeps (read : Json → Option α) (write : α → Json) (room : Nat) : Prop :=
  ∀ json x, json.Fits room → read json = some x → (write x).Fits room

theorem exists_of_mapM {items : List Json} {xs : List α} (h : items.mapM read = some xs) :
    ∀ x ∈ xs, ∃ item ∈ items, read item = some x := by
  induction items generalizing xs with
  | nil =>
      cases h
      simp
  | cons item rest ih =>
      rw [List.mapM_cons] at h
      obtain ⟨first, hfirst, hrest⟩ := Option.bind_eq_some_iff.mp h
      obtain ⟨others, hothers, hxs⟩ := Option.bind_eq_some_iff.mp hrest
      cases hxs
      rw [List.forall_mem_cons]
      refine ⟨⟨item, List.mem_cons_self, hfirst⟩, fun x hx => ?_⟩
      obtain ⟨other, hmem, hother⟩ := ih hothers x hx
      exact ⟨other, List.mem_cons_of_mem item hmem, hother⟩

/-- Lists are read element by element. -/
theorem Keeps.list {write : α → Json} (h : Keeps read write room) :
    Keeps (list? read) (fun xs => .array (xs.map write)) (room + 1) := by
  intro json xs hfits hread
  cases json with
  | array items =>
      obtain ⟨inner, hroom, hitems⟩ := hfits.array_items
      cases hroom
      refine Json.fits_array fun written hwritten => ?_
      obtain ⟨x, hx, rfl⟩ := List.mem_map.mp hwritten
      obtain ⟨item, hmem, hitem⟩ := exists_of_mapM hread x hx
      exact h item x (hitems item hmem) hitem
  | _ => cases hread

end Codec

theorem Json.isFinite_of_double? {json : Json} {d : Double} (h : json.Writable)
    (hd : json.double? = some d) : d.isFinite = true := by
  cases h with
  | int hword =>
      cases hd
      refine Double.isFinite_ofDecimal _ ?_
      have := hword.1
      have := hword.2
      simp only [Nat.pow_eq]
      omega
  | float hfinite =>
      cases hd
      exact hfinite
  | _ => cases hd

theorem Literal.double?_of_ofField? {kind : String} {value : Json} {d : Double}
    (h : ofField? kind value = some (.double d)) : value.double? = some d := by
  unfold ofField? at h
  split at h
  case h_6 => simpa using h
  case h_9 => split at h <;> cases h
  all_goals simp at h

theorem Literal.fits_of_ofJson? {json : Json} {literal : Literal} {room : Nat} (h : json.Fits room)
    (hread : ofJson? json = some literal) : literal.toJson.Fits room := by
  unfold ofJson? at hread
  split at hread
  next =>
    split at hread
    · cases hread
      exact Json.fits_string _
    · cases hread
  next kind value =>
    obtain ⟨inner, rfl, hfields⟩ := h.object_fields
    refine fits_toJson (fun d hd => ?_) (.inr (Nat.succ_pos inner))
    subst hd
    exact Json.isFinite_of_double? (hfields (kind, value) (by simp)).1 (double?_of_ofField? hread)
  next => cases hread

namespace Expr

variable {record : Codec.Record} {json : Json} {expr : Expr} {items : List Expr} {inner : Bool}
  {room : Nat}

theorem fits_of_literalOfRecord? (h : ∀ field ∈ record, field.2.Fits (room + 1))
    (hread : literalOfRecord? record = some expr) : expr.toJson.Fits (room + 2) := by
  obtain ⟨value, hvalue, hrest⟩ := Option.bind_eq_some_iff.mp hread
  obtain ⟨span, -, hexpr⟩ := Option.bind_eq_some_iff.mp hrest
  cases hexpr
  obtain ⟨field, hfield, hliteral⟩ := Codec.exists_of_required h hvalue
  exact fits_literal span (Literal.fits_of_ofJson? hfield hliteral)

theorem fits_of_varOfRecord? (hread : varOfRecord? record = some expr) :
    expr.toJson.Fits (room + 2) := by
  obtain ⟨name, -, hrest⟩ := Option.bind_eq_some_iff.mp hread
  obtain ⟨span, -, hexpr⟩ := Option.bind_eq_some_iff.mp hrest
  cases hexpr
  exact fits_var name span

theorem items?_eq (json : Json) : items? json = Codec.list? (ofJson? true) json := by
  cases json with
  | array items =>
      change list? items = items.mapM (ofJson? true)
      induction items with
      | nil => rfl
      | cons item rest ih => rw [list?, List.mapM_cons, ih]
  | _ => rfl

theorem keeps_items (h : Codec.Keeps (ofJson? true) toJson room) :
    Codec.Keeps items? (fun items => .array (toJsonList items)) (room + 1) := by
  intro json items hfits hread
  rw [items?_eq] at hread
  simpa only [toJsonList_eq] using h.list json items hfits hread

/-- What is written for an expression. By induction on half of the room: the items of an array
literal stand two levels deeper. -/
theorem keeps (inner : Bool) (half : Nat) : Codec.Keeps (ofJson? inner) toJson (2 * half) := by
  induction half generalizing inner with
  | zero =>
      intro json expr h hread
      cases json with
      | object fields =>
          obtain ⟨space, hspace, -⟩ := h.object_fields
          omega
      | array parts =>
          obtain ⟨space, hspace, -⟩ := h.array_items
          omega
      | _ => cases hread
  | succ half ih =>
      intro json expr h hread
      cases json with
      | object fields =>
          obtain ⟨space, hspace, hfields⟩ := h.object_fields
          obtain rfl : space = 2 * half + 1 := by omega
          rw [ofJson?] at hread
          obtain ⟨kind, -, hkind⟩ := Option.bind_eq_some_iff.mp hread
          cases kind with
          | literal => exact fits_of_literalOfRecord? hfields hkind
          | var => exact fits_of_varOfRecord? hkind
          | array =>
              obtain ⟨items, hitems, hrest⟩ := Option.bind_eq_some_iff.mp hkind
              obtain ⟨span, -, hexpr⟩ := Option.bind_eq_some_iff.mp hrest
              cases hexpr
              rw [itemsField?_eq] at hitems
              obtain ⟨value, hvalue, hlist⟩ := Codec.exists_of_required hfields hitems
              exact fits_array span (keeps_items (ih true) value items hvalue hlist)
      | array parts =>
          obtain ⟨space, hspace, hparts⟩ := h.array_items
          obtain rfl : space = 2 * half + 1 := by omega
          cases parts with
          | nil => cases hread
          | cons tag parts =>
              rw [List.forall_mem_cons] at hparts
              unfold ofJson? at hread
              obtain ⟨kind, -, hkind⟩ := Option.bind_eq_some_iff.mp hread
              cases kind with
              | literal =>
                  obtain ⟨record, hrecord, hexpr⟩ := Option.bind_eq_some_iff.mp hkind
                  exact fits_of_literalOfRecord? (Codec.fits_of_positional? hparts.2 hrecord) hexpr
              | var =>
                  obtain ⟨record, -, hexpr⟩ := Option.bind_eq_some_iff.mp hkind
                  exact fits_of_varOfRecord? hexpr
              | array =>
                  cases parts with
                  | nil => cases hkind
                  | cons value rest =>
                      obtain ⟨items, hlist, hrest⟩ := Option.bind_eq_some_iff.mp hkind
                      obtain ⟨record, -, hrest⟩ := Option.bind_eq_some_iff.mp hrest
                      obtain ⟨span, -, hexpr⟩ := Option.bind_eq_some_iff.mp hrest
                      cases hexpr
                      exact fits_array span
                        (keeps_items (ih true) value items (hparts.2 value (by simp)) hlist)
      | _ => cases hread

end Expr

/-- A target is read from the fields of a record. -/
theorem Target.indexes_of_ofJson? {inner : Bool} {json : Json} {target : Target} {room : Nat}
    (h : json.Fits room) (hread : ofJson? inner json = some target) :
    ∃ space record, room = space + 1 ∧ (∀ field ∈ record, field.2.Fits space) ∧
      Codec.Record.required record "index-expr" Expr.items? = some target.indexes := by
  have hindexes (kind : Kind) (record : Codec.Record)
      (hrest : (do
        let container ← containerOfRecord? record kind
        let indexes ← Codec.Record.required record "index-expr" Expr.items?
        pure { container, indexes }) = some target) :
      Codec.Record.required record "index-expr" Expr.items? = some target.indexes := by
    obtain ⟨container, -, hrest⟩ := Option.bind_eq_some_iff.mp hrest
    obtain ⟨indexes, hindexes, htarget⟩ := Option.bind_eq_some_iff.mp hrest
    cases htarget
    exact hindexes
  unfold ofJson? at hread
  split at hread
  next fields =>
    obtain ⟨kind, -, hrest⟩ := Option.bind_eq_some_iff.mp hread
    obtain ⟨space, hroom, hfields⟩ := h.object_fields
    exact ⟨space, fields, hroom, hfields, hindexes kind fields hrest⟩
  next tag parts =>
    obtain ⟨kind, -, hrest⟩ := Option.bind_eq_some_iff.mp hread
    obtain ⟨record, hrecord, hrest⟩ := Option.bind_eq_some_iff.mp hrest
    obtain ⟨space, hroom, hparts⟩ := h.array_items
    exact ⟨space, record, hroom,
      Codec.fits_of_positional? (List.forall_mem_cons.mp hparts).2 hrecord,
      hindexes kind record hrest⟩
  next => cases hread

theorem Target.keeps (inner : Bool) (half : Nat) :
    Codec.Keeps (ofJson? inner) toJson (2 * half + 2) := by
  intro json target h hread
  obtain ⟨space, record, hspace, hfields, hindexes⟩ := indexes_of_ofJson? h hread
  cases hspace
  obtain ⟨value, hvalue, hlist⟩ := Codec.exists_of_required hfields hindexes
  have hlist := Expr.keeps_items (Expr.keeps true half) value _ hvalue hlist
  unfold toJson
  cases target.container <;> exact Json.fits_object (by simp) (by simp [Json.fits_string, hlist])

theorem Assignment.keeps (inner : Bool) (half : Nat) :
    Codec.Keeps (ofJson? inner) toJson (2 * half + 3) := by
  intro json assignment h hread
  obtain ⟨record, hrecord, hrest⟩ := Option.bind_eq_some_iff.mp hread
  obtain ⟨target, htarget, hrest⟩ := Option.bind_eq_some_iff.mp hrest
  obtain ⟨value, hvalue, hrest⟩ := Option.bind_eq_some_iff.mp hrest
  obtain ⟨span, -, hassignment⟩ := Option.bind_eq_some_iff.mp hrest
  cases hassignment
  obtain ⟨space, hspace, hfields⟩ := Codec.fits_of_record? h hrecord
  cases hspace
  obtain ⟨targetJson, htargetJson, htarget⟩ := Codec.exists_of_required hfields htarget
  obtain ⟨valueJson, hvalueJson, hvalue⟩ := Codec.exists_of_required hfields hvalue
  have htarget := Target.keeps inner half _ _ htargetJson htarget
  have hvalue : value.toJson.Fits (2 * half + 2) :=
    Expr.keeps inner (half + 1) _ _ hvalueJson hvalue
  have hspan := span.fits_toJson.mono (Nat.le_add_left 1 (2 * half + 1))
  exact Json.fits_object (by simp) (by simp [htarget, hvalue, hspan])

theorem Statement.assignments_of_ofJson? {json : Json} {statement : Statement} {room : Nat}
    (h : json.Fits room) (hread : ofJson? json = some statement) :
    ∃ space record, room = space + 1 ∧ (∀ field ∈ record, field.2.Fits space) ∧
      Codec.Record.required record "assignments" (Codec.list? (Assignment.ofJson? true)) =
        some statement.assignments := by
  have hassignments (record : Codec.Record)
      (hrest : (do
        let assignments ← Codec.Record.required record "assignments"
          (Codec.list? (Assignment.ofJson? true))
        return { assignments, span := ← Codec.Record.span record }) = some statement) :
      Codec.Record.required record "assignments" (Codec.list? (Assignment.ofJson? true)) =
        some statement.assignments := by
    obtain ⟨assignments, hassignments, hrest⟩ := Option.bind_eq_some_iff.mp hrest
    obtain ⟨span, -, hstatement⟩ := Option.bind_eq_some_iff.mp hrest
    cases hstatement
    exact hassignments
  unfold ofJson? at hread
  split at hread
  next fields =>
    obtain ⟨-, -, hrest⟩ := Option.bind_eq_some_iff.mp hread
    obtain ⟨space, hroom, hfields⟩ := h.object_fields
    exact ⟨space, fields, hroom, hfields, hassignments fields hrest⟩
  next tag parts =>
    obtain ⟨-, -, hrest⟩ := Option.bind_eq_some_iff.mp hread
    obtain ⟨record, hrecord, hrest⟩ := Option.bind_eq_some_iff.mp hrest
    obtain ⟨space, hroom, hparts⟩ := h.array_items
    exact ⟨space, record, hroom,
      Codec.fits_of_positional? (List.forall_mem_cons.mp hparts).2 hrecord,
      hassignments record hrest⟩
  next => cases hread

theorem Statement.keeps (half : Nat) : Codec.Keeps ofJson? toJson (2 * half + 5) := by
  intro json statement h hread
  obtain ⟨space, record, hspace, hfields, hassignments⟩ := assignments_of_ofJson? h hread
  cases hspace
  obtain ⟨value, hvalue, hlist⟩ := Codec.exists_of_required hfields hassignments
  have hlist := (Assignment.keeps true half).list value _ hvalue hlist
  have hspan := statement.span.fits_toJson.mono (Nat.le_add_left 1 (2 * half + 3))
  exact Json.fits_object (by simp) (by simp [Json.fits_string, hlist, hspan])

end AppendLowering
