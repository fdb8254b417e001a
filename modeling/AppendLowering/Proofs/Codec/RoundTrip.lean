import AppendLowering.Proofs.Codec.Normal

/-!
# Round trips of documents

Statements and variables are read back from what they are written as. As JSON values they are
at every depth. As texts they are up to the depth that texts can have, for every way of writing
and reading texts that gives finite doubles back. What is written for a document that was read
stands for the same statement or variable.
-/

namespace AppendLowering

open Json.Builder (depthLimit)

/-- A way of writing JSON values as texts and of reading them. -/
structure Json.TextLayer where
  write : Json → String
  read? : String → Option Json

namespace Json.TextLayer

/-- What round trips of texts rest on. -/
structure Lawful (texts : TextLayer) : Prop where
  /-- Finite doubles, words and strings are read as they were written. -/
  reads_back : ∀ json : Json, json.Writable → json.depth ≤ depthLimit →
    texts.read? (texts.write json) = some json
  /-- What is nested too deeply is refused. -/
  refuses : ∀ json : Json, json.Writable → depthLimit < json.depth →
    texts.read? (texts.write json) = none
  /-- Every text that is read stands for a value with finite doubles, within the limit. -/
  fits : ∀ text json, texts.read? text = some json → json.Fits depthLimit

/-- The compact texts. -/
def compact : TextLayer where
  write := Json.render
  read? := Json.parse?

theorem lawful_compact : compact.Lawful where
  reads_back _ hwritable hdepth := hwritable.parse?_render.trans (if_pos hdepth)
  refuses _ hwritable hdepth := hwritable.parse?_render.trans (if_neg (Nat.not_le_of_lt hdepth))
  fits _ _ hread := Json.fits_of_parse? hread

/-- Reads what a text denotes. -/
def readAs? {α : Type} (texts : TextLayer) (read : Json → Option α) (text : String) : Option α :=
  (texts.read? text).bind read

variable {α : Type} {texts : TextLayer} {read : Json → Option α} {json : Json} {x : α}

theorem Lawful.readAs?_write (h : texts.Lawful) (hread : read json = some x)
    (hwritable : json.Writable) :
    texts.readAs? read (texts.write json) = if json.depth ≤ depthLimit then some x else none := by
  unfold readAs?
  split
  next hdepth => rw [h.reads_back json hwritable hdepth, Option.bind_some, hread]
  next hdepth => rw [h.refuses json hwritable (Nat.lt_of_not_le hdepth), Option.bind_none]

theorem Lawful.readAs?_write_of_fits (h : texts.Lawful) (hread : read json = some x)
    (hfits : json.Fits depthLimit) : texts.readAs? read (texts.write json) = some x := by
  rw [h.readAs?_write hread hfits.1, if_pos hfits.2]

end Json.TextLayer

section

variable {texts : Json.TextLayer}

theorem Variable.readAs?_write (h : texts.Lawful) (v : Variable) :
    texts.readAs? ofJson? (texts.write v.toJson) = some v :=
  h.readAs?_write_of_fits v.ofJson?_toJson (v.fits_toJson.mono (by decide))

theorem Statement.readAs?_write_of_readAs? (h : texts.Lawful) {text : String}
    {statement : Statement} (hread : texts.readAs? ofJson? text = some statement) :
    texts.readAs? ofJson? (texts.write statement.toJson) = some statement := by
  obtain ⟨json, htext, hjson⟩ := Option.bind_eq_some_iff.mp hread
  -- The limit of 127 levels is an odd one.
  have hfits : statement.toJson.Fits depthLimit :=
    keeps 61 json statement (h.fits text json htext) hjson
  exact h.readAs?_write_of_fits statement.ofJson?_toJson hfits

end

open Json (TextLayer.compact)

/-- The least double and one tenth in nested array literals. -/
def nestedStatement : Statement :=
  { assignments :=
      [{ target := { container := .property "this" "list"
                     indexes := [.literal (.char 65) .synthetic, .var "key" ⟨3, 1, ⟨0⟩⟩] }
         value := .array [.literal (.double ⟨1⟩) .synthetic,
           .array [.literal (.double ⟨0x3FB999999999999A⟩) .synthetic,
             .literal (.string "a\n\x01\x22") .synthetic] .synthetic] .synthetic
         span := .synthetic }]
    span := .synthetic }

/-- Keyed and positional forms, a field that does not matter, and no span. -/
def mixedDocument : String :=
  "[\"let\",[[\x7b\"index-expr\":[[\"literal\",\x7b\"uint\":3\x7d]]," ++
    "\"variable\":\"list\",\"note\":1,\"assign-type\":\"array-index-append\"\x7d," ++
    "\x7b\"type\":\"array\",\"items\":[[1,\"x\"]," ++
    "\x7b\"type\":\"literal\",\"value\":\x7b\"double\":0.1\x7d\x7d]\x7d]]]"

/-- Dynamic variables may be called variable. -/
def aliasDocument : String := "[\"k\",\"variable\",true]"

/-- Array literals in one another, around an empty one. -/
def nestedArrays : Nat → Expr
  | 0 => .array [] .synthetic
  | count + 1 => .array [nestedArrays count] .synthetic

theorem depth_nestedArrays (count : Nat) : (nestedArrays count).toJson.depth = 2 * count + 2 := by
  induction count with
  | zero => rfl
  | succ count ih =>
      have hspan : Span.synthetic.toJson.depth = 1 := rfl
      simp only [nestedArrays, Expr.toJson, Expr.toJsonList, Json.depth, Json.fieldsDepth,
        Json.itemsDepth, ih, hspan]
      omega

theorem doubles_nestedArrays (count : Nat) : (nestedArrays count).doubles = [] := by
  induction count with
  | zero => rfl
  | succ count ih => rw [nestedArrays, Expr.doubles, Expr.doublesOfAll, ih]; rfl

/-- Appends a value to a list. -/
def appending (value : Expr) : Statement :=
  { assignments :=
      [{ target := { container := .var "list", indexes := [] }, value, span := .synthetic }]
    span := .synthetic }

theorem depth_appending_nestedArrays (count : Nat) :
    (appending (nestedArrays count)).toJson.depth = 2 * count + 5 := by
  have hspan : Span.synthetic.toJson.depth = 1 := rfl
  have htarget : (Target.mk (.var "list") []).toJson.depth = 2 := rfl
  simp only [appending, Statement.toJson, Assignment.toJson, List.map_cons, List.map_nil,
    Json.depth, Json.fieldsDepth, Json.itemsDepth, depth_nestedArrays, hspan, htarget]
  omega

/-- Each array literal takes two levels of the text. -/
theorem Json.TextLayer.Lawful.readAs?_nestedArrays {texts : Json.TextLayer} (h : texts.Lawful)
    (count : Nat) :
    texts.readAs? Statement.ofJson? (texts.write (appending (nestedArrays count)).toJson) =
      if count ≤ 61 then some (appending (nestedArrays count)) else none := by
  have hdoubles : (appending (nestedArrays count)).doubles = [] := by
    simp [appending, Statement.doubles, Assignment.doubles, Expr.doublesOfAll,
      doubles_nestedArrays]
  have hwritable : (appending (nestedArrays count)).toJson.Writable :=
    Statement.writable_toJson (by simp [hdoubles])
  rw [h.readAs?_write (Statement.ofJson?_toJson _) hwritable, depth_appending_nestedArrays]
  exact if_congr (by rw [depthLimit]; omega) rfl rfl

end AppendLowering
