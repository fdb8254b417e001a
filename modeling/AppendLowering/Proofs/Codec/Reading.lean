import AppendLowering.Codec.Statement
import AppendLowering.Codec.Variable

/-!
# Reading written documents

Every part of a document is read back from the JSON value that it is written as, however deep
array literals are nested in it.
-/

namespace AppendLowering

/-! ### Fields of written records -/

@[simp] theorem Codec.lookup_cons_of_ne {β : Type} {name other : String} {value : β}
    {words : List (String × β)} (h : name ≠ other) :
    List.lookup name ((other, value) :: words) = List.lookup name words := by
  rw [List.lookup_cons, beq_false_of_ne h]

namespace Codec.Record

variable {α : Type} {record : Record} {name other : String} {value : Json} {default : α}
  {read : Json → Option α}

@[simp] theorem required_cons_self :
    required ((name, value) :: record) name read = read value := by
  rw [required, List.lookup_cons_self, Option.bind_some]

@[simp] theorem required_cons_of_ne (h : name ≠ other) :
    required ((other, value) :: record) name read = required record name read := by
  rw [required, lookup_cons_of_ne h, required]

@[simp] theorem optional_cons_self :
    optional ((name, value) :: record) name default read = read value := by
  rw [optional, List.lookup_cons_self]

@[simp] theorem optional_cons_of_ne (h : name ≠ other) :
    optional ((other, value) :: record) name default read =
      optional record name default read := by
  rw [optional, lookup_cons_of_ne h, optional]

end Codec.Record

/-! ### Numbers of a fixed width -/

namespace Json

@[simp] theorem uint32?_ofUInt32 (n : UInt32) : (Json.ofUInt32 n).uint32? = some n := by
  have hlt := n.toNat_lt
  simp only [uint32?, ofUInt32, intIn?]
  rw [if_pos (by omega)]
  simp

theorem uint8?_toNat (n : UInt8) : (Json.int n.toNat).uint8? = some n := by
  have hlt := n.toNat_lt
  simp only [uint8?, intIn?]
  rw [if_pos (by omega)]
  simp

theorem uint64?_toNat (n : UInt64) : (Json.int n.toNat).uint64? = some n := by
  have hlt := n.toNat_lt
  simp only [uint64?, intIn?]
  rw [if_pos (by omega)]
  simp

theorem int64?_toInt (n : Int64) : (Json.int n.toInt).int64? = some n := by
  have hlow := n.le_toInt
  have hhigh := n.toInt_lt
  simp only [int64?, intIn?]
  rw [if_pos (by omega)]
  simp

end Json

/-! ### Expressions -/

@[simp] theorem Span.ofJson?_toJson (span : Span) : ofJson? span.toJson = some span := by
  simp [ofJson?, toJson, Codec.record?]

@[simp] theorem Literal.ofJson?_toJson (literal : Literal) :
    ofJson? literal.toJson = some literal := by
  cases literal with
  | int value => exact congrArg (Option.map Literal.int) (Json.int64?_toInt value)
  | uint value => exact congrArg (Option.map Literal.uint) (Json.uint64?_toNat value)
  | long value => exact congrArg (Option.map Literal.long) (Json.int64?_toInt value)
  | ulong value => exact congrArg (Option.map Literal.ulong) (Json.uint64?_toNat value)
  | char code => exact congrArg (Option.map Literal.char) (Json.uint8?_toNat code)
  | double value => rfl
  | bool value => rfl
  | string text => rfl
  | null => rfl

namespace Expr

theorem itemsField?_eq (fields : Codec.Record) :
    itemsField? fields = fields.required "items" items? := by
  induction fields with
  | nil => rfl
  | cons field rest ih =>
      obtain ⟨name, value⟩ := field
      rw [itemsField?]
      by_cases hname : name = "items"
      · simp [hname]
      · simp [hname, ih, Ne.symm hname]

mutual

/-- An expression is read back at every depth, wherever it stands. -/
theorem ofJson?_toJson (inner : Bool) (expr : Expr) :
    ofJson? inner expr.toJson = some expr := by
  cases expr with
  | literal value span =>
      simp [toJson, ofJson?, Codec.tag?, kinds, literalOfRecord?, Codec.Record.span]
  | var name span =>
      simp [toJson, ofJson?, Codec.tag?, kinds, varOfRecord?, Codec.Record.span, Json.text?]
  | array items span =>
      simp [toJson, ofJson?, Codec.tag?, kinds, itemsField?_eq, items?, Codec.Record.span,
        list?_toJsonList items]

theorem list?_toJsonList (items : List Expr) : list? (toJsonList items) = some items := by
  cases items with
  | nil => rfl
  | cons item rest =>
      simp [toJsonList, list?, ofJson?_toJson true item, list?_toJsonList rest]

end

end Expr

/-! ### Statements and variables -/

theorem Target.ofJson?_toJson (inner : Bool) (target : Target) :
    ofJson? inner target.toJson = some target := by
  obtain ⟨container, indexes⟩ := target
  cases container <;>
    simp [toJson, ofJson?, Codec.tag?, kinds, containerOfRecord?, Json.text?, Expr.items?,
      Expr.list?_toJsonList]

theorem Assignment.ofJson?_toJson (inner : Bool) (assignment : Assignment) :
    ofJson? inner assignment.toJson = some assignment := by
  simp [toJson, ofJson?, Codec.record?, Codec.Record.span, Target.ofJson?_toJson,
    Expr.ofJson?_toJson]

theorem Codec.list?_map {α : Type} {read : Json → Option α} {write : α → Json}
    (h : ∀ x, read (write x) = some x) (xs : List α) :
    list? read (.array (xs.map write)) = some xs := by
  change (xs.map write).mapM read = some xs
  induction xs with
  | nil => rfl
  | cons x rest ih => simp [List.mapM_cons, h, ih]

theorem Statement.ofJson?_toJson (statement : Statement) :
    ofJson? statement.toJson = some statement := by
  simp [toJson, ofJson?, Codec.tag?, Codec.Record.span,
    Codec.list?_map (Assignment.ofJson?_toJson true)]

theorem Variable.ofJson?_toJson (v : Variable) : ofJson? v.toJson = some v := by
  have htype : DataType.ofJson? v.type.toJson = some v.type := v.type.ofKeyword?_keyword
  have hstorage : Storage.ofJson? v.storage.toJson = some v.storage :=
    v.storage.ofKeyword?_keyword
  simp [toJson, ofJson?, Codec.record?, Codec.Record.span, Json.text?, Json.bool?, htype, hstorage]

end AppendLowering
