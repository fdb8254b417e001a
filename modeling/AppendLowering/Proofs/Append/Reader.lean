import AppendLowering.Proofs.Append.Arguments
import AppendLowering.Proofs.Code.Literal
import AppendLowering.Proofs.Compile.Verdict
import AppendLowering.Proofs.Text.Digits

/-!
# The runtime reads the source indexes

The runtime walks the key string of a call and takes an argument for each key.
On a call that was compiled from a chain of indexes it finds these indexes, in
their order and with their values, and it uses up the key string, the
arguments and the announced number of slots.
-/

namespace AppendLowering

/-- An index as the runtime sees it. -/
inductive RuntimeIndex where
  | integer (value : Int)
  | text (bytes : List UInt8)
  | var (name : String)
  deriving DecidableEq, Repr

/-- The index that an expression of the source writes. -/
def Expr.index? : Expr → Option RuntimeIndex
  | .literal (.int value) _ => some (.integer value.toInt)
  | .literal (.uint value) _ => some (.integer value.toNat)
  | .literal (.long value) _ => some (.integer value.toInt)
  | .literal (.ulong value) _ => some (.integer value.toNat)
  | .literal (.string text) _ => some (.text (CString.utf8Bytes text))
  | .var name _ => some (.var name)
  | _ => none

theorem Expr.index?_of_integer {value : Literal} {i : Int} (h : value.integer? = some i)
    (span : Span) : (Expr.literal value span).index? = some (.integer i) := by
  cases value <;> cases h <;> rfl

/-- Whether a character can stand in a name. -/
def isNameChar (c : Char) : Bool := c.isAlphanum || c = '_'

/-- Whether a name is a C identifier. -/
def isIdentifier (name : String) : Bool :=
  match name.toList with
  | [] => false
  | first :: rest => isNameChar first && !first.isDigit && rest.all isNameChar

namespace RuntimeIndex

def ofName? (argument : String) : Option RuntimeIndex :=
  if isIdentifier argument then some (.var argument) else none

/-- Reads decimal digits, with a sign before them or not. -/
def ofInteger? (argument : String) : Option RuntimeIndex :=
  match Text.number? 10 argument.toList with
  | some magnitude => some (.integer magnitude)
  | none =>
      match argument.toList with
      | '-' :: digits => (Text.number? 10 digits).map fun magnitude => .integer (-magnitude)
      | _ => none

/-- Reads a literal with its length. -/
def ofSized? (argument : String) : Option RuntimeIndex :=
  match argument.toList with
  | 'S' :: 'L' :: '(' :: '\x22' :: rest =>
      match CString.Scan.plain.read rest with
      | some (bytes, [')']) => some (.text bytes)
      | _ => none
  | _ => none

/-- Reads the argument that a key announces, with the number of its slots. -/
def ofKey? (key : Char) (argument : String) : Option (Nat × RuntimeIndex) :=
  match key with
  | 'l' => ((ofName? argument).or (ofInteger? argument)).map fun index => (1, index)
  | 's' => (ofSized? argument).map fun index => (2, index)
  | 'z' => (ofName? argument).map fun index => (1, index)
  | _ => none

end RuntimeIndex

/-- What the runtime has found when it stops, and what it has left over. -/
structure Walk where
  indexes : List RuntimeIndex
  slots : Nat
  keys : List Char
  arguments : List String
  deriving DecidableEq, Repr

/-- Walks a key string up to its marker. -/
def walk : List Char → List String → Option Walk
  | 'a' :: keys, arguments => some { indexes := [], slots := 0, keys, arguments }
  | key :: keys, argument :: arguments => do
      let (slots, index) ← RuntimeIndex.ofKey? key argument
      let rest ← walk keys arguments
      return { rest with indexes := index :: rest.indexes, slots := slots + rest.slots }
  | _, _ => none

theorem isNameChar_of_identifier {name : String} (h : isIdentifier name = true) :
    ∀ c ∈ name.toList, isNameChar c = true := by
  unfold isIdentifier at h
  split at h
  · cases h
  · next first rest hname =>
      simp only [Bool.and_eq_true, List.all_eq_true] at h
      rw [hname]
      exact List.forall_mem_cons.2 ⟨h.1.1, h.2⟩

theorem isIdentifier_temporaryName (number : Nat) :
    isIdentifier (SymbolTable.temporaryName number) = true := by
  have hname : (SymbolTable.temporaryName number).toList = '_' :: (Nat.repr number).toList := by
    simp [SymbolTable.temporaryName]
  have hdigits : (Nat.repr number).toList.all isNameChar = true :=
    List.all_eq_true.2 fun c hc => by
      simp [isNameChar, Char.isAlphanum, Text.isDigit_of_mem_repr hc]
  simp only [isIdentifier, hname, hdigits]
  decide

theorem IsArgument.of_identifier {name : String} (h : isIdentifier name = true) :
    IsArgument name :=
  .of_chars isNameChar (by decide) (isNameChar_of_identifier h)

theorem IsArgument.address {name : String} (h : isIdentifier name = true) :
    IsArgument ("&" ++ name) := by
  refine .of_chars (fun c => isNameChar c || c = '&') (by decide) fun c hc => ?_
  rw [String.toList_append, List.mem_append] at hc
  rcases hc with hc | hc
  · simp_all
  · simp [isNameChar_of_identifier h c hc]

theorem IsArgument.natural (n : Nat) : IsArgument (Nat.repr n) :=
  .of_chars Char.isDigit (by decide) fun _ => Text.isDigit_of_mem_repr

theorem IsArgument.integer (i : Int) : IsArgument (Int.repr i) := by
  refine .of_chars (fun c => c.isDigit || c = '-') (by decide) fun c hc => ?_
  cases i with
  | ofNat n => simp [Text.isDigit_of_mem_repr hc]
  | negSucc n =>
      rw [Int.repr, String.toList_append, List.mem_append] at hc
      rcases hc with hc | hc
      · simp_all
      · simp [Text.isDigit_of_mem_repr hc]

/-- A number does not look like a name. -/
theorem isIdentifier_repr (i : Int) : isIdentifier (Int.repr i) = false := by
  cases i with
  | ofNat n =>
      obtain ⟨c, rest, htext⟩ := List.exists_cons_of_ne_nil (Text.repr_ne_nil n)
      have hdigit : c.isDigit = true := Text.isDigit_of_mem_repr (n := n) (by simp [htext])
      simp [isIdentifier, Int.repr, htext, hdigit]
  | negSucc n =>
      simp [isIdentifier, Text.toList_repr_negSucc, show isNameChar '-' = false by decide]

theorem ofInteger?_repr (i : Int) : RuntimeIndex.ofInteger? (Int.repr i) = some (.integer i) := by
  cases i with
  | ofNat n => simp only [RuntimeIndex.ofInteger?, Int.repr, Text.number?_repr]; rfl
  | negSucc n =>
      simp only [RuntimeIndex.ofInteger?, Text.toList_repr_negSucc, Text.number?_minus,
        Text.number?_repr]
      rfl

theorem ofKey?_integer (i : Int) :
    RuntimeIndex.ofKey? 'l' (Int.repr i) = some (1, .integer i) := by
  simp [RuntimeIndex.ofKey?, RuntimeIndex.ofName?, isIdentifier_repr, ofInteger?_repr]

theorem ofKey?_text (text : String) :
    RuntimeIndex.ofKey? 's' (CString.sized (CString.escape text)) =
      some (2, .text (CString.utf8Bytes text)) := by
  have htext : (CString.sized (CString.escape text)).toList =
      'S' :: 'L' :: '(' :: '\x22' :: ((CString.escape text).toList ++ ['\x22', ')']) := by
    simp [CString.sized]
  have hread : CString.Scan.plain.read ((CString.escape text).toList ++ ['\x22', ')']) =
      some (CString.utf8Bytes text, [')']) := by
    rw [CString.escape_takes]
    simp [CString.Scan.read, CString.Scan.pending?]
  simp [RuntimeIndex.ofKey?, RuntimeIndex.ofSized?, htext, hread]

/-- What is passed for an index is read as that index. -/
theorem Expr.Passed.ofKey? {index : Expr} {passed : Encoding × String} (h : index.Passed passed)
    (hnames : ∀ read ∈ index.reads, isIdentifier read.1 = true) :
    ∃ found, RuntimeIndex.ofKey? passed.1.key (passed.1.argument passed.2) =
      some (passed.1.slots, found) ∧ index.index? = some found := by
  cases h with
  | @integer value i h span => exact ⟨.integer i, ofKey?_integer i, Expr.index?_of_integer h span⟩
  | string text span => exact ⟨_, ofKey?_text text, rfl⟩
  | @var encoding h name span =>
      have hname : RuntimeIndex.ofName? name = some (.var name) := by
        simp [RuntimeIndex.ofName?, hnames (name, span) (by simp [Expr.reads])]
      refine ⟨.var name, ?_, rfl⟩
      cases encoding with
      | integer =>
          simp [RuntimeIndex.ofKey?, Encoding.key, Encoding.argument, Encoding.slots, hname]
      | string => exact absurd rfl h
      | dynamic =>
          simp [RuntimeIndex.ofKey?, Encoding.key, Encoding.argument, Encoding.slots, hname]

/-- What is passed for an index is one argument. -/
theorem Expr.Passed.isArgument {index : Expr} {passed : Encoding × String} (h : index.Passed passed)
    (hnames : ∀ read ∈ index.reads, isIdentifier read.1 = true) :
    IsArgument (passed.1.argument passed.2) := by
  cases h with
  | @integer value i h span => exact .integer i
  | string text span => exact .sized (CString.escape_leads 1 text)
  | @var encoding h name span =>
      have hname := IsArgument.of_identifier (hnames (name, span) (by simp [Expr.reads]))
      cases encoding with
      | integer => exact hname
      | string => exact absurd rfl h
      | dynamic => exact hname

theorem passed_isArgument {indexes : List Expr} {passed : List (Encoding × String)}
    (h : List.Forall₂ Expr.Passed indexes passed)
    (hnames : ∀ index ∈ indexes, ∀ read ∈ index.reads, isIdentifier read.1 = true) :
    ∀ argument ∈ passed.map (fun index => index.1.argument index.2), IsArgument argument := by
  induction h with
  | nil => simp
  | cons hone _ ih =>
      rw [List.forall_mem_cons] at hnames
      exact List.forall_mem_cons.2 ⟨hone.isArgument hnames.1, ih hnames.2⟩

/-- What pushing indexes adds to each part of a chain. -/
theorem KeyChain.foldl_push (passed : List (Encoding × String)) (chain : KeyChain) :
    passed.foldl (fun chain index => chain.push index.1 index.2) chain =
      { encodings := chain.encodings ++ passed.map Prod.fst
        arguments := chain.arguments ++ passed.map fun index => index.1.argument index.2
        slots := chain.slots + passed.foldr (fun index total => index.1.slots + total) 0 } := by
  induction passed generalizing chain with
  | nil => simp
  | cons index rest ih =>
      rw [List.foldl_cons, ih]
      simp [push, Nat.add_assoc]

theorem KeyChain.keys_ofList (passed : List (Encoding × String)) :
    (ofList passed).keys.toList = passed.map (fun index => index.1.key) ++ [marker] := by
  simp [ofList, foldl_push, keys, empty]

theorem KeyChain.arguments_ofList (passed : List (Encoding × String)) :
    (ofList passed).arguments = passed.map fun index => index.1.argument index.2 := by
  simp [ofList, foldl_push, empty]

theorem KeyChain.slots_ofList (passed : List (Encoding × String)) :
    (ofList passed).slots = passed.foldr (fun index total => index.1.slots + total) 0 := by
  simp [ofList, foldl_push, empty]

/-- One step of the walk. -/
theorem walk_cons {key : Char} {keys : List Char} {argument : String} {arguments : List String}
    {slots : Nat} {index : RuntimeIndex} {rest : Walk}
    (hindex : RuntimeIndex.ofKey? key argument = some (slots, index))
    (hrest : walk keys arguments = some rest) :
    walk (key :: keys) (argument :: arguments) =
      some { rest with indexes := index :: rest.indexes, slots := slots + rest.slots } := by
  have hkey : key ≠ 'a' := by
    rintro rfl
    cases hindex
  rw [walk, hindex, Option.bind_eq_bind, Option.bind_some, hrest]
  · rfl
  · exact hkey

/-- The walk takes one key and one argument for each index, and stops at the marker. -/
theorem walk_passed {indexes : List Expr} {passed : List (Encoding × String)}
    (h : List.Forall₂ Expr.Passed indexes passed)
    (hnames : ∀ index ∈ indexes, ∀ read ∈ index.reads, isIdentifier read.1 = true) :
    ∃ found, walk (passed.map (fun index => index.1.key) ++ [KeyChain.marker])
        (passed.map fun index => index.1.argument index.2) =
      some { indexes := found
             slots := passed.foldr (fun index total => index.1.slots + total) 0
             keys := [], arguments := [] } ∧
      indexes.map Expr.index? = found.map some := by
  induction h with
  | nil => exact ⟨[], rfl, rfl⟩
  | @cons index one indexes passed hone _ ih =>
      rw [List.forall_mem_cons] at hnames
      obtain ⟨found, hwalk, hfound⟩ := ih hnames.2
      obtain ⟨first, hfirst, hindex⟩ := hone.ofKey? hnames.1
      exact ⟨first :: found, walk_cons hfirst hwalk, by simp [hindex, hfound]⟩

/-- The name that a container starts with. -/
def Container.name : Container → String
  | .var name => name
  | .property object _ => object
  | .staticProperty classEntry _ => classEntry

theorem Container.leading_isArgument {container : Container}
    (h : isIdentifier container.name = true) :
    ∀ argument ∈ container.leading, IsArgument argument := by
  have hfield (field : String) : IsArgument (CString.sized (CString.escape field)) :=
    .sized (CString.escape_leads 1 field)
  cases container with
  | var name => exact List.forall_mem_singleton.2 (.address h)
  | property object field =>
      exact List.forall_mem_cons.2 ⟨.of_identifier h, List.forall_mem_singleton.2 (hfield field)⟩
  | staticProperty classEntry field =>
      exact List.forall_mem_cons.2 ⟨.of_identifier h, List.forall_mem_singleton.2 (hfield field)⟩

theorem RuntimeCall.valueArgument_isArgument {call : RuntimeCall}
    (h : isIdentifier call.holder = true) : IsArgument call.valueArgument := by
  refine IsArgument.append (.address h) (by simp) ?_
  cases call.zts
  · exact .nil _
  · exact Place.leads_of_plain (List.all_eq_true.1 (by decide))

theorem Encoding.key_leads (encoding : Encoding) :
    (Place.literal 1).Leads [encoding.key] (Place.literal 1) := by
  cases encoding <;> exact Place.leads_of_literal (by decide) (by decide)

theorem KeyChain.keys_isArgument (chain : KeyChain) : IsArgument (CString.sized chain.keys) := by
  refine .sized ?_
  rw [keys, String.toList_ofList]
  refine Place.Leads.append (.chars fun c hc => ?_) (Place.leads_of_literal (by decide) (by decide))
  obtain ⟨encoding, -, rfl⟩ := List.mem_map.1 hc
  exact encoding.key_leads

theorem isIdentifier_of_heldBy {value : Expr} {holder : String} (h : value.HeldBy holder)
    (hnames : ∀ read ∈ value.reads, isIdentifier read.1 = true) : isIdentifier holder = true := by
  rcases h with ⟨number, rfl⟩ | ⟨span, rfl⟩
  · exact isIdentifier_temporaryName number
  · exact hnames (holder, span) (by simp [Expr.reads])

/-- A compiled call, read as text, has the arguments of its container, the holder, the key string,
the number of slots, and one argument for each index. The walk over the key string finds the
indexes of the source and leaves nothing over. -/
theorem compileAppend_read_back {ρ : Type} {target : Target} {value : Expr} {span : Span}
    {s t : CompileState ρ} {call : RuntimeCall} (hs : s.context.Reachable)
    (hrun : compileAppend Expr.compile target value span s = .ok call t)
    (hcontainer : isIdentifier target.container.name = true)
    (hindexes : ∀ index ∈ target.indexes, ∀ read ∈ index.reads, isIdentifier read.1 = true)
    (hvalue : ∀ read ∈ value.reads, isIdentifier read.1 = true) :
    ∃ arguments found,
      readCall call.render = some (target.container.function,
        target.container.leading ++
          ["&" ++ call.holder ++ (if s.context.config.codegen.zts then " TSRMLS_CC" else ""),
            "SL(\"" ++ call.chain.keys ++ "\")", Nat.repr call.chain.slots] ++
          arguments) ∧
      arguments.length = target.indexes.length ∧
      walk call.chain.keys.toList arguments =
        some { indexes := found, slots := call.chain.slots, keys := [], arguments := [] } ∧
      target.indexes.map Expr.index? = found.map some := by
  have hlowers := compileAppend_returns target value span hs s call t .refl hrun
  obtain ⟨passed, hpassed, hchain⟩ := hlowers.chain
  obtain ⟨found, hwalk, hfound⟩ := walk_passed hpassed hindexes
  have hholder : isIdentifier call.holder = true := isIdentifier_of_heldBy hlowers.holder hvalue
  have hleading : ∀ argument ∈ call.container.leading, IsArgument argument :=
    Container.leading_isArgument (hlowers.container ▸ hcontainer)
  have hpassedArguments : ∀ argument ∈ call.chain.arguments, IsArgument argument := by
    rw [hchain, KeyChain.arguments_ofList]
    exact passed_isArgument hpassed hindexes
  have harguments : ∀ argument ∈ call.arguments, IsArgument argument := by
    simp only [RuntimeCall.arguments, List.forall_mem_append, List.forall_mem_cons]
    exact ⟨⟨hleading, RuntimeCall.valueArgument_isArgument hholder, call.chain.keys_isArgument,
      .natural _, by simp⟩, hpassedArguments⟩
  refine ⟨call.chain.arguments, found, ?_, ?_, ?_, hfound⟩
  · rw [RuntimeCall.readCall_render harguments, RuntimeCall.arguments, RuntimeCall.valueArgument,
      hlowers.container, hlowers.zts]
    rfl
  · rw [hchain, KeyChain.arguments_ofList, List.length_map, hpassed.length_eq]
  · rw [hchain, KeyChain.keys_ofList, KeyChain.arguments_ofList, KeyChain.slots_ofList]
    exact hwalk

/-- A context of one variable. -/
def receiverContext : Context :=
  .ofSymbols (.make true [] false 0 { zts := true, extraHeaders := [] })
    (.ofList [.declare "obj" .dynamic .receiver .synthetic])

/-- The first index holds a comma, a quote, a closing parenthesis, a byte zero before a digit, a
backslash and a character of two bytes. -/
def awkwardTarget : Target :=
  { container := .property "obj" "a, \"b"
    indexes := [.literal (.string (String.ofList [',', '\x22', ')', Char.ofNat 0, '7', '\\',
        Char.ofNat 233])) .synthetic,
      .literal (.int (-3)) .synthetic, .var "obj" .synthetic] }

theorem compileAppend_read_back_awkward :
    ∃ call t arguments slots,
      compileAppend Expr.compile awkwardTarget (.var "obj" .synthetic) .synthetic
        ⟨receiverContext, [], ()⟩ = .ok call t ∧
      arguments.length = 3 ∧
      walk call.chain.keys.toList arguments =
        some { indexes := [.text [44, 34, 41, 0, 55, 92, 195, 169], .integer (-3), .var "obj"]
               slots, keys := [], arguments := [] } := by
  have hok : (CompileM.value? (compileAppend Expr.compile awkwardTarget (.var "obj" .synthetic)
      .synthetic) ⟨receiverContext, [], ()⟩).isSome = true := by decide +kernel
  have hstart : receiverContext.Reachable := .start _ _
  rcases hrun : compileAppend Expr.compile awkwardTarget (.var "obj" .synthetic) .synthetic
    ⟨receiverContext, [], ()⟩ with ⟨call, t⟩ | ⟨failure, t⟩
  · obtain ⟨arguments, found, -, hlength, hwalk, hfound⟩ :=
      compileAppend_read_back hstart hrun (by decide +kernel) (by decide +kernel)
        (by decide +kernel)
    have hindexes : awkwardTarget.indexes.map Expr.index? =
        [RuntimeIndex.text [44, 34, 41, 0, 55, 92, 195, 169], .integer (-3),
          .var "obj"].map some := by
      decide +kernel
    rw [hindexes] at hfound
    rw [← (List.map_inj_right fun _ _ => Option.some.inj).1 hfound] at hwalk
    exact ⟨call, t, arguments, call.chain.slots, rfl, hlength, hwalk⟩
  · simp [CompileM.value?, hrun] at hok

end AppendLowering
