import AppendLowering.Proofs.Append.Reader
import AppendLowering.Proofs.Code.Line
import Mathlib.Data.List.TakeWhile
import Mathlib.Logic.Function.Basic

/-!
# A machine for emitted code

Emitted code is executed line by line on a memory that gives every variable a
value. A line names what is done, the variable that is changed, and an operand,
which is written out or is the name of another variable. The machine stops if
it does not know what is to be done, if the operand has not the form that goes
with it, if a variable does not hold what is asked of it, and if something is
appended to what is not an array.
-/

namespace AppendLowering

/-- A value that a variable can hold. -/
inductive RuntimeValue where
  | null
  | long (value : Int)
  | double (value : Double)
  | bool (value : Bool)
  | string (bytes : List UInt8)
  | array (items : List RuntimeValue)
  deriving Repr

/-- What the variables hold. -/
abbrev Memory := String → RuntimeValue

/-- The scalars that stand as operands in the code. -/
inductive Scalar where
  | long
  | double
  | bool
  deriving DecidableEq, Repr

def Scalar.admits : Scalar → RuntimeValue → Bool
  | .long, .long _ => true
  | .double, .double _ => true
  | .bool, .bool _ => true
  | _, _ => false

/-- What a line takes besides the variable that it changes. -/
inductive OperandForm where
  | nothing
  | size
  | scalar (kind : Scalar)
  /-- A literal that ends at its first byte zero. -/
  | terminated
  /-- A literal with its length. -/
  | sized
  | held
  deriving DecidableEq, Repr

inductive Effect where
  | set
  | append
  deriving DecidableEq, Repr

/-- What the runtime does, by the name under which it is called. -/
def effectOf? : String → Option (Effect × OperandForm)
  | "ZEPHIR_INIT_VAR" => some (.set, .nothing)
  | "array_init_size" => some (.set, .size)
  | "ZVAL_LONG" => some (.set, .scalar .long)
  | "ZVAL_DOUBLE" => some (.set, .scalar .double)
  | "ZVAL_BOOL" => some (.set, .scalar .bool)
  | "ZVAL_NULL" => some (.set, .nothing)
  | "ZVAL_STRING" => some (.set, .terminated)
  | "add_next_index_long" => some (.append, .scalar .long)
  | "add_next_index_double" => some (.append, .scalar .double)
  | "add_next_index_bool" => some (.append, .scalar .bool)
  | "add_next_index_null" => some (.append, .nothing)
  | "add_next_index_stringl" => some (.append, .sized)
  | "zephir_array_fast_append" => some (.append, .held)
  | _ => none

/-- The byte that a character constant stands for. Between its quotes it is like the body of a
string literal, except for the quotes themselves. -/
def CString.byteOf? : List Char → Option UInt8
  | ['\x27', '\\', '\x27', '\x27'] => some 0x27
  | ['\x27', '\x22', '\x27'] => some 0x22
  | '\x27' :: rest =>
      if rest.getLast? = some '\x27' then
        match Scan.plain.read (rest.dropLast ++ ['\x22']) with
        | some ([byte], []) => some byte
        | _ => none
      else none
  | _ => none

/-- The number that an integer or a character constant stands for. -/
def integerOf? (text : String) : Option Int :=
  match RuntimeIndex.ofInteger? text with
  | some (.integer i) => some i
  | _ => (CString.byteOf? text.toList).map fun byte => (byte.toNat : Int)

section Machine

variable (readDouble : String → Option Double) (memory : Memory)

/-- The scalar that a text writes out. -/
def Scalar.literal? (kind : Scalar) (text : String) : Option RuntimeValue :=
  match kind with
  | .long => (integerOf? text).map .long
  | .double => (readDouble text).map .double
  | .bool =>
      if text = "1" then some (.bool true)
      else if text = "0" then some (.bool false)
      else none

/-- The scalar that a text stands for: it is written out, or a variable holds it. -/
def Scalar.read (kind : Scalar) (text : String) : Option RuntimeValue :=
  (kind.literal? readDouble text).or
    (if isIdentifier text && kind.admits (memory text) then some (memory text) else none)

/-- The value that the text after the changed variable stands for. -/
def OperandForm.read : OperandForm → List Char → Option RuntimeValue
  | .nothing, [] => some .null
  | .size, ',' :: ' ' :: text => (Text.number? 10 text).map fun _ => .array []
  | .scalar kind, ',' :: ' ' :: text => kind.read readDouble memory (String.ofList text)
  | .terminated, ',' :: ' ' :: '\x22' :: text =>
      match CString.Scan.plain.read text with
      | some (bytes, [',', ' ', '1']) => some (.string (bytes.takeWhile (· ≠ 0)))
      | _ => none
  | .sized, ',' :: ' ' :: 'S' :: 'L' :: '(' :: '\x22' :: text =>
      match CString.Scan.plain.read text with
      | some (bytes, [')', ',', ' ', '1']) => some (.string bytes)
      | _ => none
  | .held, ',' :: ' ' :: text =>
      if isIdentifier (String.ofList text) then some (memory (String.ofList text)) else none
  | _, _ => none

/-- Sets a variable to a value, or appends the value to the array that it holds. -/
def Effect.apply (holder : String) (value : RuntimeValue) : Effect → Option Memory
  | .set => some (Function.update memory holder value)
  | .append =>
      match memory holder with
      | .array items => some (Function.update memory holder (.array (items ++ [value])))
      | _ => none

/-- A line as it is read. -/
structure Instruction where
  function : String
  holder : String
  operand : List Char
  deriving DecidableEq, Repr

/-- Takes a line apart. -/
def Instruction.ofText? (text : String) : Option Instruction :=
  let function := text.toList.takeWhile (· ≠ '(')
  let arguments := (text.toList.dropWhile (· ≠ '(')).drop 1
  let holder := String.ofList (arguments.takeWhile isNameChar)
  let rest := arguments.dropWhile isNameChar
  let operand := rest.take (rest.length - 2)
  if isIdentifier holder && operand ++ [')', ';'] = rest then
    some { function := String.ofList function, holder, operand }
  else none

/-- Executes a line. -/
def execute (text : String) : Option Memory := do
  let instruction ← Instruction.ofText? text
  let (effect, form) ← effectOf? instruction.function
  let value ← form.read readDouble memory instruction.operand
  effect.apply memory instruction.holder value

end Machine

/-- Executes lines one after the other. -/
def run (readDouble : String → Option Double) (lines : List String) (memory : Memory) :
    Option Memory :=
  lines.foldlM (fun memory line => execute readDouble memory line) memory

section Reading

theorem toList_intercalate_cons (first : String) (rest : List String) :
    (", ".intercalate (first :: rest)).toList =
      first.toList ++ rest.flatMap fun argument => ',' :: ' ' :: argument.toList := by
  induction rest generalizing first with
  | nil => simp
  | cons second rest ih =>
      have hrest := ih second
      rw [String.toList_intercalate] at hrest ⊢
      rw [List.map_cons, List.map_cons, List.intercalate_cons_cons, ← List.map_cons, hrest]
      simp

/-- The line of a call is taken apart into its name, its first argument and the others. -/
theorem Instruction.ofText?_statement {function holder : String} {arguments : List String}
    (hfunction : ∀ c ∈ function.toList, decide (c ≠ '(') = true)
    (hholder : isIdentifier holder = true) :
    ofText? (Line.statement function (holder :: arguments)) =
      some { function, holder
             operand := arguments.flatMap fun argument => ',' :: ' ' :: argument.toList } := by
  let operand := arguments.flatMap fun argument => ',' :: ' ' :: argument.toList
  have htext : (Line.statement function (holder :: arguments)).toList =
      function.toList ++ '(' :: (holder.toList ++ (operand ++ [')', ';'])) := by
    simp only [Line.statement, String.toList_append, toList_intercalate_cons]
    simp [operand]
  have hchars := isNameChar_of_identifier hholder
  have hend : (operand ++ [')', ';']).takeWhile isNameChar = [] ∧
      (operand ++ [')', ';']).dropWhile isNameChar = operand ++ [')', ';'] := by
    have hcomma : isNameChar ',' = false := by decide
    have hclose : isNameChar ')' = false := by decide
    cases arguments <;> simp [operand, hcomma, hclose]
  simp only [ofText?, htext]
  rw [List.takeWhile_append_of_pos hfunction, List.dropWhile_append_of_pos hfunction]
  simp only [ne_eq, not_true_eq_false, decide_false, Bool.false_eq_true, not_false_eq_true,
    List.takeWhile_cons_of_neg, List.dropWhile_cons_of_neg, List.append_nil, List.drop_one,
    List.tail_cons]
  rw [List.takeWhile_append_of_pos hchars, List.dropWhile_append_of_pos hchars, hend.1, hend.2]
  simp [hholder, operand]

theorem Line.function_no_parenthesis (line : Line) :
    ∀ c ∈ line.function.toList, decide (c ≠ '(') = true := by
  unfold Line.function
  split
  case h_14 c => exact c.container.function_no_parenthesis
  all_goals exact List.all_eq_true.mp (by decide)

/-- What stands between the quotes of a character constant. -/
def CString.constantBody (byte : UInt8) : List Char :=
  if byte = 0x27 then ['\\', '\x27']
  else if byte = 0x22 then ['\x22']
  else if byte < 0x80 then escapeChar (Char.ofNat byte.toNat)
  else octal byte

theorem CString.toList_charConstant (byte : UInt8) :
    (charConstant byte).toList = '\x27' :: (constantBody byte ++ ['\x27']) := by
  simp [charConstant, constantBody]

theorem CString.byteOf?_charConstant (byte : UInt8) :
    byteOf? (charConstant byte).toList = some byte := by
  have hall : ∀ n < 256, byteOf? ('\x27' :: (constantBody (UInt8.ofNat n) ++ ['\x27'])) =
      some (UInt8.ofNat n) := by decide +kernel
  rw [toList_charConstant]
  simpa using hall byte.toNat byte.toNat_lt

theorem integerOf?_charConstant (byte : UInt8) :
    integerOf? (CString.charConstant byte) = some (byte.toNat : Int) := by
  have hquote : Text.digitIn? 10 '\x27' = none := by decide
  have hinteger : RuntimeIndex.ofInteger? (CString.charConstant byte) = none := by
    simp [RuntimeIndex.ofInteger?, CString.toList_charConstant, Text.number?, List.mapM_cons,
      hquote]
  simp [integerOf?, hinteger, CString.byteOf?_charConstant]

theorem integerOf?_repr (i : Int) : integerOf? (Int.repr i) = some i := by
  simp [integerOf?, ofInteger?_repr]

theorem digitIn?_ten_eq_none {c : Char} (h : c.isDigit = false) : Text.digitIn? 10 c = none := by
  have hbounds : ¬ ('0' ≤ c ∧ c ≤ '9') := by
    simpa [Char.isDigit, Char.le_def] using h
  simp only [Text.digitIn?, if_neg hbounds]
  split
  · next hlower =>
      have hle : 97 ≤ c.toNat := hlower.1
      exact if_neg (by omega)
  · split
    · next hupper =>
        have hle : 65 ≤ c.toNat := hupper.1
        exact if_neg (by omega)
    · rfl

/-- A name is not taken for a number. -/
theorem integerOf?_of_identifier {name : String} (h : isIdentifier name = true) :
    integerOf? name = none := by
  unfold isIdentifier at h
  split at h
  · cases h
  · next first rest hname =>
      simp only [Bool.and_eq_true, Bool.not_eq_true'] at h
      have hsign : first ≠ '-' := by
        rintro rfl
        exact absurd h.1.1 (by decide)
      have hquote : first ≠ '\x27' := by
        rintro rfl
        exact absurd h.1.1 (by decide)
      have hnumber : Text.number? 10 (first :: rest) = none := by
        simp [Text.number?, List.mapM_cons, digitIn?_ten_eq_none h.1.2]
      simp [integerOf?, RuntimeIndex.ofInteger?, CString.byteOf?, hname, hnumber, hsign, hquote]

/-- Only the character zero is encoded with a byte zero. -/
theorem CString.zero_notMem_utf8Bytes {text : String} (h : Char.ofNat 0 ∉ text.toList) :
    0 ∉ utf8Bytes text := by
  have hbyte {n : Nat} (hpos : 0 < n) (hlt : n < 256) : 0 ≠ UInt8.ofNat n := by
    intro heq
    have hnat := congrArg UInt8.toNat heq
    simp only [UInt8.toNat_ofNat', UInt8.toNat_zero] at hnat
    omega
  rw [utf8Bytes_eq_flatMap, List.mem_flatMap]
  rintro ⟨c, hc, hzero⟩
  have hpos : 0 < c.val.toNat := by
    refine Nat.pos_of_ne_zero fun hval => h ?_
    have hchar : c = Char.ofNat 0 := Char.ext (UInt32.toNat_inj.mp hval)
    exact hchar ▸ hc
  unfold String.utf8EncodeChar at hzero
  dsimp only at hzero
  split at hzero
  · exact hbyte hpos (by omega) (List.mem_singleton.mp hzero)
  · split at hzero
    · simp only [List.mem_cons, List.not_mem_nil, or_false] at hzero
      rcases hzero with hzero | hzero <;> exact hbyte (by omega) (by omega) hzero
    · split at hzero
      · simp only [List.mem_cons, List.not_mem_nil, or_false] at hzero
        rcases hzero with hzero | hzero | hzero <;> exact hbyte (by omega) (by omega) hzero
      · simp only [List.mem_cons, List.not_mem_nil, or_false] at hzero
        rcases hzero with hzero | hzero | hzero | hzero <;>
          exact hbyte (by omega) (by omega) hzero

theorem CString.Scan.Takes.read_quoted {body : List Char} {bytes : List UInt8}
    (h : Scan.plain.Takes body bytes .plain) (rest : List Char) :
    Scan.plain.read (body ++ '\x22' :: rest) = some (bytes, rest) := by
  rw [h]
  simp [Scan.read, Scan.pending?]

end Reading

section Executing

variable {readDouble : String → Option Double} {memory memory' : Memory} {holder : String}

theorem run_append (lines lines' : List String) :
    run readDouble (lines ++ lines') memory =
      (run readDouble lines memory).bind (run readDouble lines') :=
  List.foldlM_append

theorem run_cons {line : String} (h : execute readDouble memory line = some memory')
    (lines : List String) :
    run readDouble (line :: lines) memory = run readDouble lines memory' := by
  simp [run, h]

/-- The value that an operand stands for. -/
def Operand.Denotes (readDouble : String → Option Double) (memory : Memory) :
    Operand → RuntimeValue → Prop
  | .immediate (.long code), value => Scalar.long.read readDouble memory code = some value
  | .immediate (.double code), value => Scalar.double.read readDouble memory code = some value
  | .immediate (.bool code), value => Scalar.bool.read readDouble memory code = some value
  | .immediate .null, value => value = .null
  | .immediate (.text body), value =>
      ∃ bytes, CString.Scan.plain.Takes body.toList bytes .plain ∧ value = .string bytes
  | .held name, value => isIdentifier name = true ∧ value = memory name

theorem execute_line {line : Line} {arguments : List String} (effect : Effect)
    (form : OperandForm) {value : RuntimeValue} (hline : line.arguments = holder :: arguments)
    (heffect : effectOf? line.function = some (effect, form))
    (hholder : isIdentifier holder = true)
    (hvalue : form.read readDouble memory
      (arguments.flatMap fun argument => ',' :: ' ' :: argument.toList) = some value) :
    execute readDouble memory line.render = effect.apply memory holder value := by
  rw [execute, Line.render_eq, hline,
    Instruction.ofText?_statement line.function_no_parenthesis hholder]
  simp [heffect, hvalue]

theorem execute_fresh (hholder : isIdentifier holder = true) :
    execute readDouble memory (Line.fresh holder).render =
      some (Function.update memory holder .null) :=
  execute_line .set .nothing rfl rfl hholder rfl

theorem execute_initArray (hholder : isIdentifier holder = true) (size : Nat) :
    execute readDouble memory (Line.initArray holder size).render =
      some (Function.update memory holder (.array [])) := by
  have hsize := Text.number?_repr size
  rw [Nat.toList_repr] at hsize
  exact execute_line .set .size rfl rfl hholder (by simp [OperandForm.read, hsize])

/-- The text of a scalar operand stands for the same value, wherever it is used. -/
theorem OperandForm.read_scalar {kind : Scalar} {code : String} {value : RuntimeValue}
    (h : kind.read readDouble memory code = some value) :
    (OperandForm.scalar kind).read readDouble memory
      ([code].flatMap fun argument => ',' :: ' ' :: argument.toList) = some value := by
  simpa [OperandForm.read] using h

/-- A literal that is stored ends at its first byte zero, so it must have none. -/
theorem execute_store (hholder : isIdentifier holder = true) {immediate : Immediate}
    {value : RuntimeValue} (h : (Operand.immediate immediate).Denotes readDouble memory value)
    (hzero : ∀ body bytes, immediate = .text body → value = .string bytes → 0 ∉ bytes) :
    execute readDouble memory (Line.store holder immediate).render =
      some (Function.update memory holder value) := by
  cases immediate with
  | long code => exact execute_line .set (.scalar .long) rfl rfl hholder (OperandForm.read_scalar h)
  | double code =>
      exact execute_line .set (.scalar .double) rfl rfl hholder (OperandForm.read_scalar h)
  | bool code => exact execute_line .set (.scalar .bool) rfl rfl hholder (OperandForm.read_scalar h)
  | null =>
      obtain rfl : value = .null := h
      exact execute_line .set .nothing rfl rfl hholder rfl
  | text body =>
      obtain ⟨bytes, hbytes, rfl⟩ := h
      have hread := hbytes.read_quoted [',', ' ', '1']
      have hkept : bytes.takeWhile (· ≠ 0) = bytes := by
        refine List.takeWhile_eq_self_iff.mpr fun byte hbyte => ?_
        exact decide_eq_true fun heq => hzero body bytes rfl rfl (heq ▸ hbyte)
      refine execute_line .set .terminated rfl rfl hholder ?_
      simpa [OperandForm.read, hread] using hkept

theorem execute_push (hholder : isIdentifier holder = true) {item : Operand}
    {value : RuntimeValue} {items : List RuntimeValue} (hitems : memory holder = .array items)
    (h : item.Denotes readDouble memory value) :
    execute readDouble memory (Line.push holder item).render =
      some (Function.update memory holder (.array (items ++ [value]))) := by
  have happend : Effect.append.apply memory holder value =
      some (Function.update memory holder (.array (items ++ [value]))) := by
    simp only [Effect.apply, hitems]
  rw [← happend]
  cases item with
  | held name =>
      obtain ⟨hname, rfl⟩ := h
      exact execute_line .append .held rfl rfl hholder (by simp [OperandForm.read, hname])
  | immediate immediate =>
      cases immediate with
      | long code =>
          exact execute_line .append (.scalar .long) rfl rfl hholder (OperandForm.read_scalar h)
      | double code =>
          exact execute_line .append (.scalar .double) rfl rfl hholder (OperandForm.read_scalar h)
      | bool code =>
          exact execute_line .append (.scalar .bool) rfl rfl hholder (OperandForm.read_scalar h)
      | null =>
          obtain rfl : value = .null := h
          exact execute_line .append .nothing rfl rfl hholder rfl
      | text body =>
          obtain ⟨bytes, hbytes, rfl⟩ := h
          have hread := hbytes.read_quoted [')', ',', ' ', '1']
          exact execute_line .append .sized rfl rfl hholder
            (by simp [OperandForm.read, CString.sized, hread])

end Executing

end AppendLowering
