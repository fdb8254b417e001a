import AppendLowering.Proofs.Compile.Acceptance
import AppendLowering.Proofs.Compile.Names
import AppendLowering.Proofs.Execution.Machine
import AppendLowering.Proofs.Symbol.Numbering
import AppendLowering.Proofs.Tree.Doubles

/-!
# Emitted code computes the assigned value

Given what the variables hold, an expression has a value of its own. The lines
that are emitted for an assigned value leave this value in its holder, however
deep array literals are nested in it, and no variable that was there before has
changed.
-/

namespace AppendLowering

/-- What is left of a double once it has been written out: all that are no numbers look alike. -/
def Double.written (d : Double) : Double := if d.isNaN then ⟨0x7ff8000000000000⟩ else d

def Literal.value : Literal → RuntimeValue
  | .int i => .long i.toInt
  | .uint n => .long n.toNat
  | .long i => .long i.toInt
  | .ulong n => .long n.toNat
  | .char code => .long code.toNat
  | .double d => .double d.written
  | .bool b => .bool b
  | .string text => .string (CString.utf8Bytes text)
  | .null => .null

mutual

/-- The value of an expression. -/
def Expr.eval (memory : Memory) : Expr → RuntimeValue
  | .literal value _ => value.value
  | .var name _ => memory name
  | .array items _ => .array (Expr.evalAll memory items)

def Expr.evalAll (memory : Memory) : List Expr → List RuntimeValue
  | [] => []
  | item :: rest => item.eval memory :: Expr.evalAll memory rest

end

mutual

theorem Expr.eval_congr {memory memory' : Memory} (expr : Expr)
    (h : ∀ read ∈ expr.reads, memory' read.1 = memory read.1) :
    expr.eval memory' = expr.eval memory := by
  cases expr with
  | literal value span => rfl
  | var name span => exact h (name, span) (by simp [Expr.reads])
  | array items span =>
      rw [Expr.reads] at h
      rw [Expr.eval, Expr.eval, Expr.evalAll_congr items h]

theorem Expr.evalAll_congr {memory memory' : Memory} (items : List Expr)
    (h : ∀ read ∈ Expr.readsOfAll items, memory' read.1 = memory read.1) :
    Expr.evalAll memory' items = Expr.evalAll memory items := by
  cases items with
  | nil => rfl
  | cons item rest =>
      rw [Expr.readsOfAll, List.forall_mem_append] at h
      rw [Expr.evalAll, Expr.evalAll, Expr.eval_congr item h.1, Expr.evalAll_congr rest h.2]

end

def RuntimeValue.isNull : RuntimeValue → Bool
  | .null => true
  | _ => false

/-- Whether a variable of the type can hold the value. -/
def DataType.admits (type : DataType) (value : RuntimeValue) : Bool :=
  match type with
  | .int | .uint | .long | .ulong | .char | .uchar => Scalar.long.admits value
  | .double => Scalar.double.admits value
  | .bool => Scalar.bool.admits value
  | .null => value.isNull
  | .string | .array | .dynamic => true

/-- The variable is declared, and the code that reads it stands for its contents. -/
structure Context.Legible (c : Context) (readDouble : String → Option Double) (memory : Memory)
    (name : String) : Prop where
  identifier : isIdentifier name = true
  found : ∃ v, c.symbols.lookup name = .ok (some v) ∧ v.type.admits (memory name) = true ∧
    (v.type = .double → readDouble name = none)

namespace Context.Legible

variable {c d : Context} {readDouble : String → Option Double} {memory memory' : Memory}
  {name : String}

theorem contains (h : c.Legible readDouble memory name) : c.symbols.contains name = true := by
  obtain ⟨v, hv, -⟩ := h.found
  exact SymbolTable.contains_of_lookup hv

theorem mono (h : c.Legible readDouble memory name) (hc : c.Reachable) (hgrows : c.Grows d)
    (hsame : memory' name = memory name) : d.Legible readDouble memory' name := by
  obtain ⟨v, hv, hrest⟩ := h.found
  refine ⟨h.identifier, v, ?_, hsame ▸ hrest⟩
  rw [hgrows.lookup_eq hc (.inl (by simp [hv])), hv]

end Context.Legible

section Operands

variable {readDouble : String → Option Double} {memory : Memory}

theorem Scalar.read_of_literal {kind : Scalar} {text : String} {value : RuntimeValue}
    (h : kind.literal? readDouble text = some value) :
    kind.read readDouble memory text = some value := by
  simp [Scalar.read, h]

theorem Scalar.read_of_name {kind : Scalar} {name : String} (hname : isIdentifier name = true)
    (hliteral : kind.literal? readDouble name = none) (hadmits : kind.admits (memory name) = true) :
    kind.read readDouble memory name = some (memory name) := by
  simp [Scalar.read, hliteral, hname, hadmits]

/-- The operand of a literal stands for the literal. -/
theorem Literal.denotes (value : Literal) {span : Span} {c : Context} {operand : Operand}
    (hdouble : ∀ d, value = .double d → readDouble (Double.codeLayout.render d) = some d.written)
    (h : Resolved.operand ⟨value.resolve.1, value.resolve.2, span⟩ c = .ok operand) :
    operand.Denotes readDouble memory value.value := by
  have hinteger (i : Int) : Scalar.long.read readDouble memory (Int.repr i) = some (.long i) :=
    Scalar.read_of_literal (by simp [Scalar.literal?, integerOf?_repr])
  cases value with
  | int i | long i =>
      cases h
      exact hinteger i.toInt
  | uint n | ulong n =>
      cases h
      exact hinteger (n.toNat : Int)
  | char code =>
      cases h
      exact Scalar.read_of_literal (by
        simp [Literal.resolve, Literal.value, Scalar.literal?, integerOf?_charConstant])
  | double d =>
      cases h
      exact Scalar.read_of_literal (by
        simp [Literal.resolve, Literal.value, Scalar.literal?, hdouble d rfl])
  | bool b =>
      cases h
      cases b <;> exact Scalar.read_of_literal (by
        simp [Literal.resolve, Literal.value, Scalar.literal?])
  | string text =>
      cases h
      exact ⟨CString.utf8Bytes text, CString.escape_takes text, rfl⟩
  | null =>
      cases h
      rfl

/-- The operand of a variable stands for its contents. -/
theorem Context.Legible.denotes {c : Context} {v : Variable}
    (h : c.Legible readDouble memory v.name) (hv : c.symbols.lookup v.name = .ok (some v)) :
    v.operand.Denotes readDouble memory (memory v.name) := by
  obtain ⟨w, hw, hadmits, hdouble⟩ := h.found
  obtain rfl : v = w := by simpa [hv] using hw
  have hlong (hadmits : Scalar.long.admits (memory v.name) = true) :
      Scalar.long.read readDouble memory v.name = some (memory v.name) :=
    Scalar.read_of_name h.identifier
      (by simp [Scalar.literal?, integerOf?_of_identifier h.identifier]) hadmits
  cases htype : v.type <;> simp only [Variable.operand, htype, DataType.admits] at hadmits ⊢
  case int | uint | long | ulong | char | uchar => exact hlong hadmits
  case double =>
    exact Scalar.read_of_name h.identifier (by simp [Scalar.literal?, hdouble htype]) hadmits
  case bool =>
    have hone : v.name ≠ "1" := fun heq => absurd (heq ▸ h.identifier) (by decide)
    have hzero : v.name ≠ "0" := fun heq => absurd (heq ▸ h.identifier) (by decide)
    exact Scalar.read_of_name h.identifier (by simp [Scalar.literal?, hone, hzero]) hadmits
  case null =>
    cases hvalue : memory v.name <;> simp [hvalue, RuntimeValue.isNull] at hadmits
    rfl
  case string | array | dynamic => exact ⟨h.identifier, rfl⟩

end Operands

/-- Whatever the context has bound holds what it held before. -/
def Context.Keeps (c : Context) (memory memory' : Memory) : Prop :=
  ∀ name, c.symbols.contains name = true → memory' name = memory name

/-- A fresh temporary has a name that was free and is bound now. -/
theorem Context.fresh_of_initTemporary {c d : Context} {span : Span} {holder : String}
    (h : c.initTemporary span = (holder, d)) :
    isIdentifier holder = true ∧ c.symbols.contains holder = false ∧
      d.symbols.contains holder = true := by
  cases h
  refine ⟨isIdentifier_temporaryName _, SymbolTable.contains_freeNumber _, ?_⟩
  exact (SymbolTable.contains_declare _ _ _).mpr (.inr rfl)

theorem Context.ne_of_free {c : Context} {name holder : String}
    (hname : c.symbols.contains name = true) (hfree : c.symbols.contains holder = false) :
    name ≠ holder := by
  rintro rfl
  simp [hfree] at hname

theorem Context.keeps_update {c : Context} {holder : String}
    (hfree : c.symbols.contains holder = false) (memory : Memory) (value : RuntimeValue) :
    c.Keeps memory (Function.update memory holder value) :=
  fun _ hname => Function.update_of_ne (ne_of_free hname hfree) value memory

variable {readDouble : String → Option Double}

mutual

/-- The lines of an expression keep what the variables hold, and its operand stands for its
value after them, as long as no bound variable changes. -/
theorem Expr.Compiles.runs (expr : Expr) {c d : Context} {value : Resolved} {lines : List Line}
    {memory : Memory} (h : expr.Compiles c value lines d) (hc : c.Reachable)
    (hreads : ∀ read ∈ expr.reads, c.Legible readDouble memory read.1)
    (hdoubles : ∀ x ∈ expr.doubles,
      readDouble (Double.codeLayout.render x) = some x.written) :
    ∃ memory', run readDouble (lines.map Line.render) memory = some memory' ∧
      c.Keeps memory memory' ∧
      ∀ operand after, value.operand d = .ok operand → d.Keeps memory' after →
        operand.Denotes readDouble after (expr.eval memory) := by
  cases expr with
  | literal literal span =>
      cases h
      refine ⟨memory, rfl, fun _ _ => rfl, fun operand after hoperand _ => ?_⟩
      refine literal.denotes ?_ hoperand
      rintro x rfl
      exact hdoubles x (by simp [Expr.doubles])
  | var name span =>
      cases h with
      | @var _ _ _ v hread =>
          refine ⟨memory, rfl, fun _ _ => rfl, fun operand after hoperand hkeeps => ?_⟩
          have hname := Context.name_of_readVariable hc.wellFormed hread
          have hlegible := hreads (name, span) (by simp [Expr.reads])
          have hsame := hkeeps name hlegible.contains
          rw [← hname] at hread hlegible hsame
          obtain rfl : v.operand = operand := by
            simpa [Resolved.operand, hread, Except.map] using hoperand
          have hdenotes := (hlegible.mono hc .refl hsame).denotes
            (Context.lookup_of_readVariable hread).1
          rwa [hsame, hname] at hdenotes
  | array items span =>
      cases h with
      | @array _ _ _ start _ holder lines hstart hitems =>
          rw [Expr.reads] at hreads
          rw [Expr.doubles] at hdoubles
          obtain ⟨hidentifier, hfree, hbound⟩ := Context.fresh_of_initTemporary hstart
          have hgrown : c.Grows (start.write (.initArray holder items.length)) :=
            (Context.Emits.initTemporary hstart).grows.trans (.write _ _)
          let memory₁ := Function.update memory holder .null
          let memory₂ := Function.update memory₁ holder (.array [])
          have hkeeps : c.Keeps memory memory₂ := fun name hname =>
            (Context.keeps_update hfree memory₁ _ name hname).trans
              (Context.keeps_update hfree memory _ name hname)
          have hitemReads : ∀ read ∈ Expr.readsOfAll items,
              (start.write (.initArray holder items.length)).Legible readDouble memory₂ read.1 ∧
                read.1 ≠ holder := by
            intro read hread
            have hlegible := hreads read hread
            exact ⟨hlegible.mono hc hgrown (hkeeps read.1 hlegible.contains),
              Context.ne_of_free hlegible.contains hfree⟩
          obtain ⟨memory', hrun, hframe, hholder⟩ := hitems.runs items (hgrown.reachable hc)
            hidentifier hbound (Function.update_self ..) hitemReads hdoubles
          refine ⟨memory', ?_, ?_, ?_⟩
          · rw [List.map_cons, List.map_cons, run_cons (execute_fresh hidentifier),
              run_cons (execute_initArray hidentifier _), hrun]
          · intro name hname
            exact (hframe name (hgrown.contains hname) (Context.ne_of_free hname hfree)).trans
              (hkeeps name hname)
          · intro operand after hoperand hafter
            cases hoperand
            have hcontains := (hitems.emits items).grows.contains hbound
            refine ⟨hidentifier, ?_⟩
            rw [hafter holder hcontains, hholder, Expr.eval, List.nil_append,
              Expr.evalAll_congr items fun read hread =>
                hkeeps read.1 (hreads read hread).contains]

/-- The lines of items append their values to the array in the holder, and keep what all other
variables hold. -/
theorem Expr.CompilesAll.runs (items : List Expr) {holder : String} {c d : Context}
    {lines : List Line} {memory : Memory} {done : List RuntimeValue}
    (h : Expr.CompilesAll items holder c lines d) (hc : c.Reachable)
    (hidentifier : isIdentifier holder = true) (hbound : c.symbols.contains holder = true)
    (hdone : memory holder = .array done)
    (hreads : ∀ read ∈ Expr.readsOfAll items,
      c.Legible readDouble memory read.1 ∧ read.1 ≠ holder)
    (hdoubles : ∀ x ∈ Expr.doublesOfAll items,
      readDouble (Double.codeLayout.render x) = some x.written) :
    ∃ memory', run readDouble (lines.map Line.render) memory = some memory' ∧
      (∀ name, c.symbols.contains name = true → name ≠ holder → memory' name = memory name) ∧
      memory' holder = .array (done ++ Expr.evalAll memory items) := by
  cases items with
  | nil =>
      cases h
      exact ⟨memory, rfl, fun _ _ _ => rfl, by simp [Expr.evalAll, hdone]⟩
  | cons item rest =>
      cases h with
      | @cons _ _ _ _ middle _ value operand lines lines' hitem hoperand hrest =>
          rw [Expr.readsOfAll, List.forall_mem_append] at hreads
          rw [Expr.doublesOfAll, List.forall_mem_append] at hdoubles
          obtain ⟨memory₁, hrun₁, hkeeps, hmeaning⟩ := hitem.runs item hc
            (fun read hread => (hreads.1 read hread).1) hdoubles.1
          have hpush := execute_push hidentifier ((hkeeps holder hbound).trans hdone)
            (hmeaning operand memory₁ hoperand fun _ _ => rfl)
          let memory₂ := Function.update memory₁ holder (.array (done ++ [item.eval memory]))
          have hother : ∀ name, c.symbols.contains name = true → name ≠ holder →
              memory₂ name = memory name := fun name hname hne =>
            (Function.update_of_ne hne _ memory₁).trans (hkeeps name hname)
          have hgrown : c.Grows (middle.write (.push holder operand)) :=
            (hitem.emits item).grows.trans (.write _ _)
          have hrestReads : ∀ read ∈ Expr.readsOfAll rest,
              (middle.write (.push holder operand)).Legible readDouble memory₂ read.1 ∧
                read.1 ≠ holder := by
            intro read hread
            obtain ⟨hlegible, hne⟩ := hreads.2 read hread
            exact ⟨hlegible.mono hc hgrown (hother read.1 hlegible.contains hne), hne⟩
          obtain ⟨memory₃, hrun₃, hframe, hholder⟩ := hrest.runs rest (hgrown.reachable hc)
            hidentifier (hgrown.contains hbound) (Function.update_self ..) hrestReads hdoubles.2
          refine ⟨memory₃, ?_, ?_, ?_⟩
          · rw [List.map_append, run_append, hrun₁, Option.bind_some, List.map_cons,
              run_cons hpush, hrun₃]
          · intro name hname hne
            exact (hframe name (hgrown.contains hname) hne).trans (hother name hname hne)
          · rw [hholder, Expr.evalAll, List.append_assoc, List.singleton_append,
              Expr.evalAll_congr rest fun read hread =>
                hother read.1 (hreads.2 read hread).1.contains (hreads.2 read hread).2]

end

/-- Only literals have text as their operand. -/
theorem Expr.Compiles.string_of_text {value : Expr} {c d : Context} {resolved : Resolved}
    {lines : List Line} {body : String} (h : value.Compiles c resolved lines d)
    (hoperand : resolved.operand d = .ok (.immediate (.text body))) :
    ∃ text span, value = .literal (.string text) span := by
  cases h with
  | literal literal span =>
      cases literal with
      | string text => exact ⟨text, span, rfl⟩
      | int _ | uint _ | long _ | ulong _ | char _ | double _ | bool _ | null => cases hoperand
  | @var name span _ v hread =>
      cases hagain : c.readVariable v.name span with
      | error failure => simp [Resolved.operand, hagain, Except.map] at hoperand
      | ok w =>
          have htext : w.operand = .immediate (.text body) := by
            simpa [Resolved.operand, hagain, Except.map] using hoperand
          unfold Variable.operand at htext
          split at htext <;> cases htext
  | array _ _ => cases hoperand

/-- The lines of an assigned value leave it in its holder. -/
theorem Expr.Holds.runs {value : Expr} {c d : Context} {holder : String} {lines : List Line}
    {memory : Memory} (h : value.Holds c holder lines d) (hc : c.Reachable)
    (hreads : ∀ read ∈ value.reads, c.Legible readDouble memory read.1)
    (hdoubles : ∀ x ∈ value.doubles,
      readDouble (Double.codeLayout.render x) = some x.written)
    (hterminated : ∀ text span, value = .literal (.string text) span →
      Char.ofNat 0 ∉ text.toList) :
    ∃ final, run readDouble (lines.map Line.render) memory = some final ∧
      final holder = value.eval memory ∧ c.Keeps memory final := by
  cases h with
  | held hvalue hoperand =>
      obtain ⟨memory', hrun, hkeeps, hmeaning⟩ := hvalue.runs value hc hreads hdoubles
      obtain ⟨-, heval⟩ := hmeaning _ memory' hoperand fun _ _ => rfl
      exact ⟨memory', hrun, heval.symm, hkeeps⟩
  | @boxed resolved lines middle start immediate holder hvalue hoperand hstart =>
      obtain ⟨memory', hrun, hkeeps, hmeaning⟩ := hvalue.runs value hc hreads hdoubles
      obtain ⟨hidentifier, hfree, -⟩ := Context.fresh_of_initTemporary hstart
      let memory₁ := Function.update memory' holder .null
      have hdenotes := hmeaning _ memory₁ hoperand (Context.keeps_update hfree memory' .null)
      have hzero : ∀ body bytes, immediate = .text body → value.eval memory = .string bytes →
          0 ∉ bytes := by
        rintro body bytes rfl heval
        obtain ⟨text, span, rfl⟩ := hvalue.string_of_text hoperand
        cases heval
        exact CString.zero_notMem_utf8Bytes (hterminated text span rfl)
      refine ⟨Function.update memory₁ holder (value.eval memory), ?_, Function.update_self .., ?_⟩
      · rw [List.map_append, run_append, hrun, Option.bind_some, List.map_cons, List.map_cons,
          run_cons (execute_fresh hidentifier), run_cons (execute_store hidentifier hdenotes hzero)]
        rfl
      · intro name hname
        have hmiddle := (hvalue.emits value).grows.contains hname
        exact (Context.keeps_update hfree memory₁ _ name hmiddle).trans
          ((Context.keeps_update hfree memory' _ name hmiddle).trans (hkeeps name hname))

/-- What the variables of a context hold: those that can be read hold values of their types. -/
structure Environment (c : Context) where
  contents : Memory
  fits : ∀ name v, c.symbols.lookup name = .ok (some v) → v.isReadable = true →
    v.type.admits (contents name) = true

/-- The doubles of the expression are understood as they were written, and none of its variables
that hold a double is taken for a number. -/
structure Expr.DoublesRead (readDouble : String → Option Double) (c : Context) (value : Expr) :
    Prop where
  literal : ∀ d ∈ value.doubles, readDouble (Double.codeLayout.render d) = some d.written
  name : ∀ read ∈ value.reads, c.Provides read.1 (· = .double) → readDouble read.1 = none

theorem Environment.legible {c : Context} (environment : Environment c) {name : String}
    (hname : isIdentifier name = true) (hprovides : c.Provides name fun _ => True)
    (hdouble : c.Provides name (· = .double) → readDouble name = none) :
    c.Legible readDouble environment.contents name := by
  obtain ⟨v, hv, hreadable, -⟩ := hprovides
  refine ⟨hname, v, hv, ?_, fun htype => hdouble ⟨v, hv, hreadable, htype⟩⟩
  exact environment.fits name v hv (v.isReadable_iff.mpr hreadable)

/-- An assigned value whose variables can be read is compiled, and executing the lines that this
adds to the code leaves its value in the holder that is returned. Nothing that was bound before
has changed. A string that is assigned as such must not contain the character zero. -/
theorem holdValue_computes {ρ : Type} {s : CompileState ρ} (hs : s.context.Reachable)
    (environment : Environment s.context) {value : Expr}
    (hreads : ∀ read ∈ value.reads,
      isIdentifier read.1 = true ∧ s.context.Provides read.1 fun _ => True)
    (hdoubles : value.DoublesRead readDouble s.context)
    (hterminated : ∀ text span, value = .literal (.string text) span →
      Char.ofNat 0 ∉ text.toList) :
    ∃ holder t added final,
      holdValue Expr.compile value s = .ok holder t ∧
      t.context.code.text = s.context.code.text ++ added ∧
      run readDouble (Text.linesOf added) environment.contents = some final ∧
      final holder = value.eval environment.contents ∧
      ∀ name, s.context.symbols.contains name = true → final name = environment.contents name := by
  have hsettled : value.Settled s.context := by
    intro read hread
    obtain ⟨v, hv, -⟩ := (hreads read hread).2
    exact .inl (by simp [hv])
  have hreadable : s.context.unreadableOf? value.reads = none :=
    (Context.unreadableOf?_eq_none_iff value.reads).mpr fun read hread => (hreads read hread).2
  obtain ⟨holder, t, hcompiled⟩ : ∃ holder t, holdValue Expr.compile value s = .ok holder t := by
    have hverdict := holdValue_settles value hsettled hs s .refl
    rwa [hreadable] at hverdict
  obtain ⟨lines, hlines⟩ := holds_of_ok hcompiled
  have hlegible : ∀ read ∈ value.reads,
      s.context.Legible readDouble environment.contents read.1 := fun read hread =>
    environment.legible (hreads read hread).1 (hreads read hread).2 (hdoubles.name read hread)
  obtain ⟨final, hrun, hfinal, hkeeps⟩ := hlines.runs hs hlegible hdoubles.literal hterminated
  have hunbroken := hlines.unbroken hs fun read hread =>
    .of_chars (by decide) (isNameChar_of_identifier (hreads read hread).1)
  refine ⟨holder, t, Line.code lines, final, hcompiled, hlines.emits.code, ?_, hfinal, hkeeps⟩
  rw [Line.linesOf_code hunbroken, hrun]

/-- An integer, a double and an array, one with the name of a temporary. -/
def mixedVariables : List Variable :=
  [.declare "n" .int .parameter .synthetic, .declare "_0" .double .parameter .synthetic,
    .declare "list" .array .parameter .synthetic]

def mixedContext : Context := .ofSymbols receiverContext.config (.ofList mixedVariables)

/-- The double `1.5`. -/
def oneAndAHalf : Double := ⟨0x3ff8000000000000⟩

def mixedEnvironment : Environment mixedContext where
  contents name :=
    if name = "n" then .long 7
    else if name = "_0" then .double oneAndAHalf
    else .array [.null]
  fits name v hv _ := by
    have hmem : v ∈ mixedVariables := by
      have hstored := SymbolTable.mem_of_lookup hv
      rwa [mixedContext, Context.ofSymbols, SymbolTable.declared_ofList] at hstored
    obtain rfl : v.name = name := by
      rcases (SymbolTable.WellFormed.ofList mixedVariables).lookup_cases name with
        hnone | ⟨w, hw, h⟩
      · rw [mixedContext, Context.ofSymbols, hnone] at hv
        cases hv
      · rw [mixedContext, Context.ofSymbols, hw] at hv
        cases hv
        exact h
    simp only [mixedVariables, List.mem_cons, List.not_mem_nil, or_false] at hmem
    rcases hmem with rfl | rfl | rfl <;> rfl

/-- Two array literals, one in the other, around variables and literals of several kinds. -/
def mixedValue : Expr :=
  .array [.var "n" .synthetic,
    .array [.literal (.char 39) .synthetic, .var "_0" .synthetic,
      .literal (.string (String.ofList ['a', Char.ofNat 0])) .synthetic] .synthetic,
    .literal (.double oneAndAHalf) .synthetic, .var "list" .synthetic,
    .literal .null .synthetic] .synthetic

/-- Knows one double. -/
def readOneAndAHalf (text : String) : Option Double :=
  if text = "1.5" then some oneAndAHalf else none

theorem holdValue_computes_mixed :
    ∃ (holder : String) (t : CompileState Unit) (added : String) (final : Memory),
      holdValue Expr.compile mixedValue ⟨mixedContext, [], ()⟩ = .ok holder t ∧
      t.context.code.text = mixedContext.code.text ++ added ∧
      run readOneAndAHalf (Text.linesOf added) mixedEnvironment.contents = some final ∧
      final holder = .array [.long 7,
        .array [.long 39, .double oneAndAHalf, .string [97, 0]],
        .double oneAndAHalf, .array [.null], .null] ∧
      final "_0" = .double oneAndAHalf := by
  have hstart : mixedContext.Reachable := .start _ _
  have hvariables : ∀ v ∈ mixedVariables, isIdentifier v.name = true ∧
      mixedContext.symbols.lookup v.name = .ok (some v) ∧ v.initialized = true ∧
      readOneAndAHalf v.name = none := by
    simp only [mixedVariables, List.forall_mem_cons]
    exact ⟨by decide +kernel, by decide +kernel, by decide +kernel, by simp⟩
  have hreads : ∀ read ∈ mixedValue.reads, ∃ v ∈ mixedVariables, v.name = read.1 := by
    simp [mixedValue, Expr.reads, Expr.readsOfAll, mixedVariables, Variable.declare]
  have hprovides : ∀ read ∈ mixedValue.reads,
      isIdentifier read.1 = true ∧ mixedContext.Provides read.1 fun _ => True := by
    intro read hread
    obtain ⟨v, hv, hname⟩ := hreads read hread
    obtain ⟨hidentifier, hlookup, hinitialized, -⟩ := hvariables v hv
    exact hname ▸ ⟨hidentifier, v, hlookup, .inl hinitialized, trivial⟩
  have hdoubles : mixedValue.DoublesRead readOneAndAHalf mixedContext := by
    constructor
    · intro d hd
      obtain rfl : d = oneAndAHalf := by
        simpa [mixedValue, Expr.doubles, Expr.doublesOfAll] using hd
      decide +kernel
    · intro read hread _
      obtain ⟨v, hv, hname⟩ := hreads read hread
      exact hname ▸ (hvariables v hv).2.2.2
  obtain ⟨holder, t, added, final, hcompiled, hcode, hrun, hfinal, hkeeps⟩ :=
    @holdValue_computes readOneAndAHalf Unit ⟨mixedContext, [], ()⟩ hstart mixedEnvironment
      mixedValue hprovides hdoubles (by simp [mixedValue])
  exact ⟨holder, t, added, final, hcompiled, hcode, hrun, hfinal.trans rfl,
    hkeeps "_0" (by decide +kernel)⟩

end AppendLowering
