import FormCompiler.Flow.Verify
import FormCompiler.Proofs.Double.Text
import FormCompiler.Proofs.Flow.TypeText
import FormCompiler.Proofs.Text.Number

/-!
# Instructions read back

Operands, instructions and terminators are read from their written forms: `definition_operationText`
for instructions that define a variable, `effect_operationText` for the others and
`terminator_text`. What is needed of them is said by two predicates: the numbers fit the words that
hold them (`Instr.Fits`), and names are plain (`Instr.IsPlain`).
-/

namespace FormCompiler.Flow

variable {c : Char}

/-! ## Words and names -/

/-- Whether a number fits a 32-bit word. -/
abbrev Fits32 (n : Nat) : Prop := n < twoPow 32

/-- Whether a number fits a 64-bit word. -/
abbrev Fits64 (n : Nat) : Prop := n < twoPow 64

/-- Whether the numbers of a constant fit. -/
def Const.Fits : Const → Prop
  | int n => isInt64 n = true
  | float _ | bool _ | str _ => True

/-- Whether the numbers of a value fit. -/
def Value.Fits : Value → Prop
  | const c => c.Fits
  | copy v | unary _ v | cast v => Fits32 v
  | binary _ lhs rhs => Fits32 lhs ∧ Fits32 rhs

/-- Whether the numbers of an instruction fit. -/
def Instr.Fits : Instr → Prop
  | set dst value => Fits32 dst ∧ value.Fits
  | call dst _ args _ _ => (∀ v ∈ dst, Fits32 v) ∧ ∀ v ∈ args, Fits32 v
  | load dst slot => Fits32 dst ∧ Fits32 slot
  | store slot value => Fits32 slot ∧ Fits32 value
  | loadGlobal dst _ => Fits32 dst
  | loadElement dst slot index => Fits32 dst ∧ Fits32 slot ∧ Fits32 index
  | storeElement slot index value => Fits32 slot ∧ Fits32 index ∧ Fits32 value
  | boundsCheck index length => Fits32 index ∧ Fits64 length
  | makeArray dst elements | makeTuple dst elements => Fits32 dst ∧ ∀ v ∈ elements, Fits32 v
  | extract dst tuple index => Fits32 dst ∧ Fits32 tuple ∧ Fits32 index
  | alloc dst size => Fits32 dst ∧ Fits32 size
  | free pointer | release pointer => Fits32 pointer
  | loadLanes dst slot start => Fits32 dst ∧ Fits32 slot ∧ Fits64 start
  | storeLanes slot start value => Fits32 slot ∧ Fits64 start ∧ Fits32 value
  | binaryLanes dst _ lhs rhs => Fits32 dst ∧ Fits32 lhs ∧ Fits32 rhs

/-- Whether the numbers of a terminator fit. -/
def Terminator.Fits : Terminator → Prop
  | ret value => ∀ v ∈ value, Fits32 v
  | jump target args => Fits32 target ∧ ∀ v ∈ args, Fits32 v
  | branch test thenBlock elseBlock => Fits32 test ∧ Fits32 thenBlock ∧ Fits32 elseBlock
  | unreachable => True

/-- Whether a name is one of those that programs have. -/
def IsPlainName (name : String) : Prop :=
  name ≠ "" ∧ ∀ c ∈ name.toList, Text.isBlank c = false ∧ c ∉ ['(', ')', ':', '.']

/-- The name that an instruction refers to. -/
def Instr.name? : Instr → Option String
  | call _ callee _ _ _ => some callee
  | loadGlobal _ name => some name
  | _ => none

/-- The floating-point constant of an instruction. -/
def Instr.float? : Instr → Option UInt64
  | set _ (.const (.float bits)) => some bits
  | _ => none

/-- Whether the name of an instruction is plain and its constant is a number. -/
structure Instr.IsPlain (instr : Instr) : Prop where
  name : ∀ name ∈ instr.name?, IsPlainName name
  float : ∀ bits ∈ instr.float?, Double.view bits ≠ .notANumber

/-! ## Operands -/

theorem toList_varText (v : VarId) :
  (varText v).toList = '%' :: Nat.toDigits 10 v
  := by
  simp [varText]
  rfl

theorem toList_slotText (s : SlotId) :
  (slotText s).toList = '$' :: Nat.toDigits 10 s
  := by
  simp [slotText]
  rfl

theorem toList_blockText (b : BlockId) :
  (blockText b).toList = 'b' :: 'b' :: Nat.toDigits 10 b
  := by
  simp [blockText]
  rfl

/-- The characters of a variable, a slot or a block. -/
theorem not_mem_varText {v : VarId} (hdigit : c.isDigit = false) (hc : c ≠ '%') :
  c ∉ (varText v).toList
  := by
  simp [toList_varText, hc, Text.not_mem_toDigits hdigit]

theorem not_mem_slotText {s : SlotId} (hdigit : c.isDigit = false) (hc : c ≠ '$') :
  c ∉ (slotText s).toList
  := by
  simp [toList_slotText, hc, Text.not_mem_toDigits hdigit]

theorem not_mem_blockText {b : BlockId} (hdigit : c.isDigit = false) (hc : c ≠ 'b') :
  c ∉ (blockText b).toList
  := by
  simp [toList_blockText, hc, Text.not_mem_toDigits hdigit]

theorem toList_varsText (vars : List VarId) :
  (varsText vars).toList = [',', ' '].intercalate (vars.map fun v => (varText v).toList)
  := by
  simp [varsText, String.toList_intercalate]
  rfl

theorem not_mem_varsText {vars : List VarId} (hdigit : c.isDigit = false) (hc : c ≠ '%') (hcomma : c ≠ ',')
    (hspace : c ≠ ' ') :
  c ∉ (varsText vars).toList
  := by
  rw [toList_varsText]
  apply Text.not_mem_intercalate
  · simp [hcomma, hspace]
  · intro part hpart
    obtain ⟨v, -, rfl⟩ := List.mem_map.mp hpart
    exact not_mem_varText hdigit hc

namespace Read

variable {v lhs dst rhs : VarId}

theorem numbered_append
    {n : Nat} (lead : String) (fault : String → ReadFault) (h : Fits32 n) :
  numbered lead fault (lead.toList ++ Nat.toDigits 10 n) = .ok n
  := by
  simp [numbered, required, nat32, Text.nat32?_toDigits h, bind, Except.bind]

@[simp]
theorem var_varText (h : Fits32 v) :
  var (varText v).toList = .ok v
  := by
  rw [toList_varText]
  apply numbered_append "%" _ h

@[simp]
theorem slot_slotText {s : SlotId} (h : Fits32 s) :
  slot (slotText s).toList = .ok s
  := by
  rw [toList_slotText]
  apply numbered_append "$" _ h

@[simp]
theorem block_blockText {b : BlockId} (h : Fits32 b) :
  block (blockText b).toList = .ok b
  := by
  rw [toList_blockText]
  apply numbered_append "bb" _ h

theorem nat32_toDigits {n : Nat} (h : Fits32 n) :
  nat32 (Nat.toDigits 10 n) = .ok n
  := by
  simp [nat32, required, Text.nat32?_toDigits h]

theorem nat64_toDigits {n : Nat} (h : Fits64 n) :
  nat64 (Nat.toDigits 10 n) = .ok n
  := by
  simp [nat64, required, Text.nat64?_toDigits h]

theorem isBlank_of_isDigit (h : c.isDigit = true) :
  Text.isBlank c = false
  := by
  have hend := isTypeEnd_of_isDigit h
  simp only [isTypeEnd, Bool.and_eq_true, Bool.not_eq_true'] at hend
  exact hend.1

/-- A name that starts with a plain character and goes on with digits is an item. -/
theorem isItem_numbered
    (lead : List Char) (hlead : ∀ c ∈ lead, isListMark c = false ∧ Text.isBlank c = false) (n : Nat) :
  IsItem (lead ++ Nat.toDigits 10 n)
  := by
  apply IsItem.of_plain
  · simp
  · intro c hc
    rcases List.mem_append.mp hc with hc | hc
    · exact hlead c hc
    · have hdigit := Nat.isDigit_of_mem_toDigits (by decide) (by decide) hc
      exact ⟨isListMark_of_isDigit hdigit, isBlank_of_isDigit hdigit⟩

theorem isItem_varText (v : VarId) :
  IsItem (varText v).toList
  := by
  rw [toList_varText]
  apply isItem_numbered ['%']
  simp only [List.forall_mem_cons, List.not_mem_nil, false_implies, implies_true]
  decide

theorem isItem_blockText (b : BlockId) :
  IsItem (blockText b).toList
  := by
  rw [toList_blockText]
  apply isItem_numbered ['b', 'b']
  simp only [List.forall_mem_cons, List.not_mem_nil, false_implies, implies_true]
  decide

theorem vars_varsText {vs : List VarId} (h : ∀ v ∈ vs, Fits32 v) :
  vars (varsText vs).toList = .ok vs
  := by
  rw [toList_varsText, vars, listItems_intercalate]
  · induction vs with
    | nil => rfl
    | cons v vs ih =>
      rw [List.map_cons, List.mapM_cons, var_varText (h v (by simp)),
        ih fun w hw => h w (by simp [hw])]
      rfl
  · intro item hitem
    obtain ⟨v, -, rfl⟩ := List.mem_map.mp hitem
    apply isItem_varText

theorem type_typeText {t : ValueType} (h : t.Fits) :
  type t.text.toList = .ok t
  := by
  simp [type, ValueType.ofText_typeText h, Except.mapError]

/-! ## Parts of instructions -/

theorem pair_append {lhs : List Char} (h : ',' ∉ lhs) (rhs : List Char) :
  pair (lhs ++ ',' :: ' ' :: rhs) = .ok (lhs, rhs)
  := by
  have hsplit : splitAt? ", " (lhs ++ ',' :: ' ' :: rhs) = some (lhs, rhs) :=
    Text.splitFirst?_append h rhs
  simp only [pair, hsplit, required]

theorem subscript_append {s : SlotId} (h : Fits32 s) (inner : List Char) :
  subscript ((slotText s).toList ++ '[' :: (inner ++ [']'])) = .ok (s, inner)
  := by
  have hsplit : splitAt? "[" ((slotText s).toList ++ '[' :: (inner ++ [']']))
      = some ((slotText s).toList, inner ++ [']']) :=
    Text.splitFirst?_append (not_mem_slotText (by decide) (by decide)) _
  simp [subscript, hsplit, required, slot_slotText h, bind, Except.bind, pure, Except.pure]

theorem splitOp_word {op : String} (h : ' ' ∉ op.toList) (rest : List Char) :
  splitOp (op.toList ++ ' ' :: rest) = (op, rest)
  := by
  have hsplit : splitAt? " " (op.toList ++ ' ' :: rest) = some (op.toList, rest) :=
    Text.splitFirst?_append h rest
  simp only [splitOp, hsplit, Option.getD_some, String.ofList_toList]

/-- A constant of a type is read. -/
theorem const_text
    {c : Const} {t : ValueType} (htype : Verify.constHasType c t = true) (hfits : c.Fits)
    (hnumber : ∀ bits, c = .float bits → Double.view bits ≠ .notANumber) :
  const t c.text.toList = .ok c
  := by
  cases c with
  | int n =>
    cases t with
    | int bits =>
      have hread := Text.int64?_toString (n := n) hfits
      rw [Int.toString_eq_repr] at hread
      simp [const, Const.text, hread, required, bind, Except.bind, pure, Except.pure]
    | _ => simp [Verify.constHasType, ValueType.isInt] at htype
  | float bits =>
    cases t with
    | float width =>
      have hread := Double.parse?_render (hnumber bits rfl)
      simp [const, Const.text, hread, required, bind, Except.bind, pure, Except.pure]
    | _ => simp [Verify.constHasType, ValueType.isFloat] at htype
  | bool b =>
    obtain rfl : t = .bool := by simpa [Verify.constHasType] using htype
    cases b with
    | true => rfl
    | false => rfl
  | str text =>
    obtain rfl : t = .str := by simpa [Verify.constHasType] using htype
    simp [const, Const.text, quoted, Text.Quoted.read_write, Except.mapError, bind, Except.bind,
      pure, Except.pure]

/-- The calling convention is read. -/
theorem convention_text (c : Convention) :
  convention c.text.toList = .ok c
  := by
  cases c with
  | native => rfl
  | foreign library =>
    have htight : Text.IsTight ('c' :: ' ' :: (Text.Quoted.write library).toList) := by
      constructor
      · simp
        decide
      · intro c hc
        rw [List.getLast?_cons, List.getLast?_cons, Text.Quoted.getLast?_write] at hc
        obtain rfl : '"' = c := by simpa using hc
        decide
    have htrim := trim_space htight
    simp [convention, Convention.text, htrim, Text.after?, required, quoted, Text.Quoted.read_write,
      Except.mapError, bind, Except.bind, pure, Except.pure]

/-- A call is read, with and without a destination. -/
theorem call_text
    {callee : String} {args : List VarId} (dst : Option VarId) (convention : Convention)
    (isTail : Bool) (hname : IsPlainName callee) (hargs : ∀ v ∈ args, Fits32 v) :
  call dst (Instr.call dst callee args convention isTail).operationText.toList
    = .ok (.call dst callee args convention isTail)
  := by
  have hopen : '(' ∉ callee.toList := fun hc => (hname.2 _ hc).2 (by simp)
  have hclose : ')' ∉ (varsText args).toList :=
    not_mem_varsText (by decide) (by decide) (by decide) (by decide)
  have hcallee : splitAt? "(" (callee.toList ++ '(' ::
      ((varsText args).toList ++ ')' :: convention.text.toList))
      = some (callee.toList, (varsText args).toList ++ ')' :: convention.text.toList) :=
    Text.splitFirst?_append hopen _
  have hvars : splitAt? ")" ((varsText args).toList ++ ')' :: convention.text.toList)
      = some ((varsText args).toList, convention.text.toList) :=
    Text.splitFirst?_append hclose _
  cases isTail with
  | true | false =>
    simp [call, Instr.operationText, Text.after?, required, hcallee, hvars, convention_text,
      vars_varsText hargs, bind, Except.bind, pure, Except.pure]

/-! ## Operators -/

theorem ofMnemonic?_mnemonic (op : BinaryOp) :
  BinaryOp.ofMnemonic? op.mnemonic = some op
  := by
  cases op <;> rfl

theorem ofMnemonic?_mnemonic_unary (op : UnaryOp) :
  BinaryOp.ofMnemonic? op.mnemonic = none ∧ UnaryOp.ofMnemonic? op.mnemonic = some op
  := by
  cases op <;> exact ⟨rfl, rfl⟩

theorem ofMnemonic?_mnemonic_lanes (op : BinaryOp) :
  BinaryOp.ofMnemonic? ("v" ++ op.mnemonic) = none ∧ UnaryOp.ofMnemonic? ("v" ++ op.mnemonic) = none
  := by
  cases op <;> exact ⟨rfl, rfl⟩

/-- The words that start a definition other than one by an operator. -/
def keywords : List String :=
  ["const", "copy", "cast", "call", "tail", "load", "global", "index", "array", "tuple", "extract",
    "alloc", "vload"]

theorem definition_operator
    {op : String} (dst : VarId) (t : ValueType) (rest : List Char) (hspace : ' ' ∉ op.toList)
    (h : op ∉ keywords) :
  definition dst t (op.toList ++ ' ' :: rest) = operation dst op rest
  := by
  simp only [keywords, List.mem_cons, List.not_mem_nil, or_false, not_or] at h
  rw [definition, splitOp_word hspace]
  simp only
  split <;> simp_all

/-- The definitions by an operator. -/
theorem definition_binary (op : BinaryOp) (t : ValueType) (hlhs : Fits32 lhs) (hrhs : Fits32 rhs) :
  definition dst t (Instr.set dst (.binary op lhs rhs)).operationText.toList
    = .ok (.set dst (.binary op lhs rhs))
  := by
  have hspace : ' ' ∉ op.mnemonic.toList := by cases op <;> decide
  have hkeyword : op.mnemonic ∉ keywords := by cases op <;> decide
  have hpair := pair_append (not_mem_varText (c := ',') (v := lhs) (by decide) (by decide))
    (varText rhs).toList
  have hread := definition_operator dst t ((varText lhs).toList ++ ',' :: ' ' :: (varText rhs).toList)
    hspace hkeyword
  rw [operation, ofMnemonic?_mnemonic, hpair] at hread
  simpa [Instr.operationText, Value.text, var_varText hlhs, var_varText hrhs, bind, Except.bind, pure,
    Except.pure] using hread

theorem definition_unary (op : UnaryOp) (t : ValueType) (hv : Fits32 v) :
  definition dst t (Instr.set dst (.unary op v)).operationText.toList = .ok (.set dst (.unary op v))
  := by
  have hspace : ' ' ∉ op.mnemonic.toList := by cases op <;> decide
  have hkeyword : op.mnemonic ∉ keywords := by cases op <;> decide
  have hread := definition_operator dst t (varText v).toList hspace hkeyword
  obtain ⟨hbinary, hunary⟩ := ofMnemonic?_mnemonic_unary op
  rw [operation, hbinary, hunary] at hread
  simpa [Instr.operationText, Value.text, var_varText hv, bind, Except.bind, pure, Except.pure]
    using hread

theorem definition_lanes (op : BinaryOp) (t : ValueType) (hlhs : Fits32 lhs) (hrhs : Fits32 rhs) :
  definition dst t (Instr.binaryLanes dst op lhs rhs).operationText.toList
    = .ok (.binaryLanes dst op lhs rhs)
  := by
  have hspace : ' ' ∉ ("v" ++ op.mnemonic).toList := by cases op <;> decide
  have hkeyword : "v" ++ op.mnemonic ∉ keywords := by cases op <;> decide
  have hpair := pair_append (not_mem_varText (c := ',') (v := lhs) (by decide) (by decide))
    (varText rhs).toList
  have hread := definition_operator dst t ((varText lhs).toList ++ ',' :: ' ' :: (varText rhs).toList)
    hspace hkeyword
  obtain ⟨hbinary, hunary⟩ := ofMnemonic?_mnemonic_lanes op
  have hname : ("v" ++ op.mnemonic).toList = 'v' :: op.mnemonic.toList := by simp
  rw [operation, hbinary, hunary] at hread
  simp only [hname, String.ofList_toList, ofMnemonic?_mnemonic, hpair] at hread
  simpa [Instr.operationText, var_varText hlhs, var_varText hrhs, bind, Except.bind, pure,
    Except.pure] using hread

/-! ## Instructions and terminators -/

section

-- how readers run once the parts of their texts are known
attribute [local simp] bind Except.bind pure Except.pure

/-- An instruction that defines a variable is read, given the type of the variable. -/
theorem definition_operationText {instr : Instr} {t : ValueType} (hdef : instr.def? = some dst) (hfits : instr.Fits)
    (hplain : instr.IsPlain) (hconst : ∀ c, instr = .set dst (.const c) → Verify.constHasType c t = true) :
  definition dst t instr.operationText.toList = .ok instr
  := by
  have hword : ∀ (op : String) (rest : List Char), ' ' ∉ op.toList →
      splitOp (op.toList ++ ' ' :: rest) = (op, rest) := fun op rest h => splitOp_word h rest
  cases instr with
  | set dst' value =>
    obtain rfl : dst' = dst := by simpa [Instr.def?] using hdef
    obtain ⟨-, hvalue⟩ : Fits32 dst' ∧ value.Fits := hfits
    cases value with
    | const c =>
      have hread := const_text (hconst c rfl) hvalue fun bits hbits =>
        hplain.float bits (by simp [Instr.float?, hbits])
      have hsplit := hword "const" c.text.toList (by decide)
      simp at hsplit
      simp [definition, Instr.operationText, Value.text, hsplit, hread]
    | copy v =>
      have hv : Fits32 v := hvalue
      have hsplit := hword "copy" (varText v).toList (by decide)
      simp at hsplit
      simp [definition, Instr.operationText, Value.text, hsplit, hv]
    | binary op lhs rhs => exact definition_binary op t hvalue.1 hvalue.2
    | unary op v => exact definition_unary op t hvalue
    | cast v =>
      have hv : Fits32 v := hvalue
      have hsplit := hword "cast" (varText v).toList (by decide)
      simp at hsplit
      simp [definition, Instr.operationText, Value.text, hsplit, hv]
  | call dst' callee args convention isTail =>
    obtain rfl : dst' = some dst := by simpa [Instr.def?] using hdef
    have hcall := call_text (some dst) convention isTail (hplain.name callee rfl) hfits.2
    have hsplit := hword (if isTail then "tail" else "call")
      ((if isTail then "call @".toList else ['@']) ++ (callee.toList ++
        '(' :: ((varsText args).toList ++ ')' :: convention.text.toList))) (by cases isTail <;> decide)
    cases isTail with
    | true | false =>
      simp [Instr.operationText] at hsplit hcall
      simp [definition, Instr.operationText, hsplit, hcall]
  | load dst' slot =>
    obtain rfl : dst' = dst := by simpa [Instr.def?] using hdef
    have hslot : Fits32 slot := hfits.2
    have hsplit := hword "load" (slotText slot).toList (by decide)
    simp at hsplit
    simp [definition, Instr.operationText, hsplit, hslot]
  | loadGlobal dst' name =>
    obtain rfl : dst' = dst := by simpa [Instr.def?] using hdef
    have hsplit := hword "global" ('@' :: name.toList) (by decide)
    simp at hsplit
    simp [definition, Instr.operationText, hsplit, Text.after?, required]
  | loadElement dst' slot index =>
    obtain rfl : dst' = dst := by simpa [Instr.def?] using hdef
    obtain ⟨-, hslot, hindex⟩ : Fits32 dst' ∧ Fits32 slot ∧ Fits32 index := hfits
    have hsplit := hword "index" ((slotText slot).toList ++ '[' :: ((varText index).toList ++ [']']))
      (by decide)
    simp at hsplit
    simp [definition, Instr.operationText, hsplit, subscript_append hslot, hindex]
  | makeArray dst' elements =>
    obtain rfl : dst' = dst := by simpa [Instr.def?] using hdef
    have hsplit := hword "array" ('[' :: ((varsText elements).toList ++ [']'])) (by decide)
    have hinner := Text.between?_append ['['] (varsText elements).toList [']']
    simp at hsplit hinner
    simp [definition, Instr.operationText, hsplit, delimited, hinner, required,
      vars_varsText hfits.2]
  | makeTuple dst' elements =>
    obtain rfl : dst' = dst := by simpa [Instr.def?] using hdef
    have hsplit := hword "tuple" ('(' :: ((varsText elements).toList ++ [')'])) (by decide)
    have hinner := Text.between?_append ['('] (varsText elements).toList [')']
    simp at hsplit hinner
    simp [definition, Instr.operationText, hsplit, delimited, hinner, required,
      vars_varsText hfits.2]
  | extract dst' tuple index =>
    obtain rfl : dst' = dst := by simpa [Instr.def?] using hdef
    obtain ⟨-, htuple, hindex⟩ : Fits32 dst' ∧ Fits32 tuple ∧ Fits32 index := hfits
    have hsplit := hword "extract" ((varText tuple).toList ++ ',' :: ' ' :: Nat.toDigits 10 index)
      (by decide)
    have hpair := pair_append (not_mem_varText (c := ',') (v := tuple) (by decide) (by decide))
      (Nat.toDigits 10 index)
    simp at hsplit
    simp [definition, Instr.operationText, hsplit, hpair, htuple, nat32_toDigits hindex]
  | alloc dst' size =>
    obtain rfl : dst' = dst := by simpa [Instr.def?] using hdef
    have hsize : Fits32 size := hfits.2
    have hsplit := hword "alloc" (varText size).toList (by decide)
    simp at hsplit
    simp [definition, Instr.operationText, hsplit, hsize]
  | loadLanes dst' slot start =>
    obtain rfl : dst' = dst := by simpa [Instr.def?] using hdef
    obtain ⟨-, hslot, hstart⟩ : Fits32 dst' ∧ Fits32 slot ∧ Fits64 start := hfits
    have hsplit := hword "vload" ((slotText slot).toList ++ '[' :: (Nat.toDigits 10 start ++ [']']))
      (by decide)
    simp at hsplit
    simp [definition, Instr.operationText, hsplit, subscript_append hslot, nat64_toDigits hstart]
  | binaryLanes dst' op lhs rhs =>
    obtain rfl : dst' = dst := by simpa [Instr.def?] using hdef
    exact definition_lanes op t hfits.2.1 hfits.2.2
  | store slot value | storeElement slot index value | boundsCheck index length | free pointer
  | release pointer | storeLanes slot start value => simp [Instr.def?] at hdef

/-- An instruction that defines no variable is read. -/
theorem effect_operationText
    {instr : Instr} (hdef : instr.def? = none) (hfits : instr.Fits) (hplain : instr.IsPlain) :
  effect instr.operationText.toList = .ok instr
  := by
  have hword : ∀ (op : String) (rest : List Char), ' ' ∉ op.toList →
      splitOp (op.toList ++ ' ' :: rest) = (op, rest) := fun op rest h => splitOp_word h rest
  have hcomma : ∀ v, ',' ∉ (varText v).toList := fun v => not_mem_varText (by decide) (by decide)
  have hcomma' : ∀ s, ',' ∉ (slotText s).toList := fun s => not_mem_slotText (by decide) (by decide)
  cases instr with
  | call dst' callee args convention isTail =>
    obtain rfl : dst' = none := by simpa [Instr.def?] using hdef
    have hcall := call_text none convention isTail (hplain.name callee rfl) hfits.2
    have hsplit := hword (if isTail then "tail" else "call")
      ((if isTail then "call @".toList else ['@']) ++ (callee.toList ++
        '(' :: ((varsText args).toList ++ ')' :: convention.text.toList))) (by cases isTail <;> decide)
    cases isTail with
    | true | false =>
      simp [Instr.operationText] at hsplit hcall
      simp [effect, Instr.operationText, hsplit, hcall]
  | store slot value =>
    obtain ⟨hslot, hvalue⟩ : Fits32 slot ∧ Fits32 value := hfits
    have hsplit := hword "store" ((slotText slot).toList ++ ',' :: ' ' :: (varText value).toList)
      (by decide)
    have hpair : splitAt? ", " ((slotText slot).toList ++ ',' :: ' ' :: (varText value).toList)
        = some ((slotText slot).toList, (varText value).toList) :=
      Text.splitFirst?_append (hcomma' slot) _
    have hbracket : '[' ∉ (slotText slot).toList := not_mem_slotText (by decide) (by decide)
    simp at hsplit
    simp [effect, Instr.operationText, hsplit, hpair, required, hvalue, hbracket, hslot]
  | storeElement slot index value =>
    obtain ⟨hslot, hindex, hvalue⟩ : Fits32 slot ∧ Fits32 index ∧ Fits32 value := hfits
    have hsplit := hword "store" ((slotText slot).toList ++ '[' :: ((varText index).toList ++
      ']' :: ',' :: ' ' :: (varText value).toList)) (by decide)
    have hpair : splitAt? ", " ((slotText slot).toList ++ '[' :: ((varText index).toList ++ [']']) ++
          ',' :: ' ' :: (varText value).toList)
        = some ((slotText slot).toList ++ '[' :: ((varText index).toList ++ [']']),
          (varText value).toList) :=
      Text.splitFirst?_append (c := ',') (by simp [hcomma, hcomma']) _
    simp at hsplit hpair
    simp [effect, Instr.operationText, hsplit, hpair, required, hvalue, subscript_append hslot, hindex]
  | boundsCheck index length =>
    obtain ⟨hindex, hlength⟩ : Fits32 index ∧ Fits64 length := hfits
    have hsplit := hword "bounds_check" ((varText index).toList ++ ',' :: ' ' :: Nat.toDigits 10 length)
      (by decide)
    have hpair := pair_append (hcomma index) (Nat.toDigits 10 length)
    simp at hsplit
    simp [effect, Instr.operationText, hsplit, hpair, hindex, nat64_toDigits hlength]
  | free pointer =>
    have hpointer : Fits32 pointer := hfits
    have hsplit := hword "free" (varText pointer).toList (by decide)
    simp at hsplit
    simp [effect, Instr.operationText, hsplit, hpointer]
  | release pointer =>
    have hpointer : Fits32 pointer := hfits
    have hsplit := hword "release" (varText pointer).toList (by decide)
    simp at hsplit
    simp [effect, Instr.operationText, hsplit, hpointer]
  | storeLanes slot start value =>
    obtain ⟨hslot, hstart, hvalue⟩ : Fits32 slot ∧ Fits64 start ∧ Fits32 value := hfits
    have hsplit := hword "vstore" ((slotText slot).toList ++ '[' :: (Nat.toDigits 10 start ++
      ']' :: ',' :: ' ' :: (varText value).toList)) (by decide)
    have hdigits : ',' ∉ Nat.toDigits 10 start := Text.not_mem_toDigits (by decide)
    have htarget : ',' ∉ (slotText slot).toList ++ '[' :: (Nat.toDigits 10 start ++ [']']) := by
      simp [hcomma', hdigits]
    have hpair := pair_append htarget (varText value).toList
    simp at hsplit hpair
    simp [effect, Instr.operationText, hsplit, hpair, hvalue, subscript_append hslot,
      nat64_toDigits hstart]
  | set dst value | load dst slot | loadGlobal dst name | loadElement dst slot index
  | makeArray dst elements | makeTuple dst elements | extract dst tuple index | alloc dst size
  | loadLanes dst slot start | binaryLanes dst op lhs rhs => simp [Instr.def?] at hdef

/-- A terminator is read. -/
theorem terminator_text {t : Terminator} (h : t.Fits) :
  terminator t.text.toList = .ok (some t)
  := by
  have hword : ∀ (op : String) (rest : List Char), ' ' ∉ op.toList →
      splitOp (op.toList ++ ' ' :: rest) = (op, rest) := fun op rest h => splitOp_word h rest
  cases t with
  | ret value =>
    cases value with
    | none => rfl
    | some v =>
      have hv : Fits32 v := h v rfl
      have hsplit := hword "ret" (varText v).toList (by decide)
      have hne : (varText v).toList ≠ [] := by simp [toList_varText]
      simp at hsplit hne
      simp [terminator, Terminator.text, hsplit, hne, hv]
  | jump target args =>
    obtain ⟨htarget, hargs⟩ : Fits32 target ∧ ∀ v ∈ args, Fits32 v := h
    have hopen : '(' ∉ (blockText target).toList := not_mem_blockText (by decide) (by decide)
    cases args with
    | nil =>
      have hsplit := hword "jump" (blockText target).toList (by decide)
      have hnone : splitAt? "(" (blockText target).toList = none := Text.splitFirst?_eq_none hopen
      simp at hsplit
      simp [terminator, Terminator.text, hsplit, hnone, htarget]
    | cons v args =>
      have hsplit := hword "jump" ((blockText target).toList ++ '(' ::
        ((varsText (v :: args)).toList ++ [')'])) (by decide)
      have hargs' : splitAt? "(" ((blockText target).toList ++ '(' ::
          ((varsText (v :: args)).toList ++ [')']))
          = some ((blockText target).toList, (varsText (v :: args)).toList ++ [')']) :=
        Text.splitFirst?_append hopen _
      simp at hsplit
      simp [terminator, Terminator.text, hsplit, hargs', required, vars_varsText hargs, htarget]
  | branch test thenBlock elseBlock =>
    obtain ⟨htest, hthen, helse⟩ : Fits32 test ∧ Fits32 thenBlock ∧ Fits32 elseBlock := h
    have hsplit := hword "branch" ((varText test).toList ++ ',' :: ' ' ::
      ((blockText thenBlock).toList ++ ',' :: ' ' :: (blockText elseBlock).toList)) (by decide)
    have hitem : ∀ i ∈ [(varText test).toList, (blockText thenBlock).toList,
        (blockText elseBlock).toList], IsItem i := by
      simp [isItem_varText, isItem_blockText]
    have hitems := listItems_intercalate hitem
    simp at hsplit hitems
    simp [terminator, Terminator.text, hsplit, hitems, htest, hthen, helse]
  | unreachable => rfl

end

end Read

end FormCompiler.Flow
