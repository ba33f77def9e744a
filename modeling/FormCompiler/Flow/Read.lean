import FormCompiler.Flow.Print
import FormCompiler.Text.Split

/-!
# Reading flow graphs

`Function.ofText` reads the written form of a function: what `Function.text` writes reads back as
the same function. Lines are read one after another, without the blanks around them; empty lines
are passed over.
-/

namespace FormCompiler.Flow

/-! ## Faults -/

/-- Why a line cannot be read. -/
inductive ReadFault where
  | afterEnd (line : String)
  | noTerminator
  | afterTerminator (line : String)
  | header (line : String)
  | noResultType
  | unknownFlag (flag : String)
  | malformedSlot (line : String)
  | slotOrder (index : String)
  | malformedDead (line : String)
  | headerItem (line : String)
  | definedTwice (v : VarId)
  | blockHeader (line : String)
  | openParams
  | blockOrder (b : BlockId)
  | malformedParam (param : String)
  | malformedDefinition (line : String)
  | noType (definition : String)
  | openJump
  | malformedBranch (line : String)
  | unknownInstruction (op : String)
  | malformedStore (line : String)
  | malformedCall (text : String)
  | noCallArguments
  | openCall
  | unknownConvention (text : String)
  | trailingCall (rest : String)
  | badConstant (type : ValueType) (text : String)
  | noConstants (type : ValueType)
  | unexpectedEnd
  | untyped (v : VarId)
  | noEntry (b : BlockId)
  | malformedField (field : String)
  | missingField (key : String)
  | badField (key : String)
  | unknownComparison (text : String)
  | operands (text : String)
  | delimiters (opening closing : Char) (text : String)
  | globalName (text : String)
  | number (text : String)
  | variableName (text : String)
  | slotName (text : String)
  | blockName (text : String)
  | subscript (text : String)
  | openSubscript (text : String)
  | type (fault : TypeFault)
  | quoted (fault : Text.Quoted.Fault)
deriving DecidableEq, Repr, Inhabited

/-- The message of a read fault. -/
def ReadFault.message : ReadFault → String
  | afterEnd line => s!"unexpected `{line}` after end of function"
  | noTerminator => "block without terminator"
  | afterTerminator line => s!"`{line}` after block terminator"
  | header line => s!"expected `func @name -> type \x7b`, found `{line}`"
  | noResultType => "missing return type"
  | unknownFlag flag => s!"unknown flag `{flag}`"
  | malformedSlot line => s!"malformed slot `{line}`"
  | slotOrder index => s!"slot ${index} out of order"
  | malformedDead line => s!"malformed dead variable `{line}`"
  | headerItem line => s!"unexpected `{line}` in function header"
  | definedTwice v => s!"%{v} defined twice"
  | blockHeader line => s!"expected block header, found `{line}`"
  | openParams => "unclosed block parameter list"
  | blockOrder b => s!"bb{b} out of order"
  | malformedParam param => s!"malformed block parameter `{param}`"
  | malformedDefinition line => s!"malformed definition `{line}`"
  | noType definition => s!"missing type in `{definition}`"
  | openJump => "unclosed jump arguments"
  | malformedBranch line => s!"malformed branch `{line}`"
  | unknownInstruction op => s!"unknown instruction `{op}`"
  | malformedStore line => s!"malformed store `{line}`"
  | malformedCall text => s!"malformed call `{text}`"
  | noCallArguments => "missing call arguments"
  | openCall => "unclosed call arguments"
  | unknownConvention text => s!"unknown calling convention `{text}`"
  | trailingCall rest => s!"trailing `{rest}` after call"
  | badConstant t text => s!"invalid {t.text} constant `{text}`"
  | noConstants t => s!"no constants of type {t.text}"
  | unexpectedEnd => "unexpected end of input"
  | untyped v => s!"%{v} has no type"
  | noEntry b => s!"entry bb{b} does not exist"
  | malformedField field => s!"malformed loop field `{field}`"
  | missingField key => s!"loop is missing `{key}`"
  | badField key => s!"invalid loop `{key}`"
  | unknownComparison text => s!"unknown comparison `{text}`"
  | operands text => s!"expected two operands, found `{text}`"
  | delimiters opening closing text =>
    s!"expected `{opening}...{closing}`, found `{text}`"
  | globalName text => s!"expected `@name`, found `{text}`"
  | number text => s!"invalid number `{text}`"
  | variableName text => s!"expected variable, found `{text}`"
  | slotName text => s!"expected slot, found `{text}`"
  | blockName text => s!"expected block, found `{text}`"
  | subscript text => s!"expected `$slot[..]`, found `{text}`"
  | openSubscript text => s!"unclosed subscript in `{text}`"
  | type fault => fault.message
  | quoted fault => fault.message

/-- A read fault and the number of its line, from one on. -/
structure ReadError where
  line : Nat
  fault : ReadFault
deriving DecidableEq, Repr, Inhabited

/-- The message of an error. -/
def ReadError.message (e : ReadError) : String := s!"line {e.line}: {e.fault.message}"

namespace Read

/-- A part of a line that is read, or why it cannot be. -/
abbrev Result := Except ReadFault

/-- A value that has to be there. -/
def required (value : Option α) (fault : ReadFault) : Result α :=
  match value with
  | some a => .ok a
  | none => .error fault

/-- The text before and after the first occurrence of a separator, if there is one. -/
def splitAt? (sep : String) (text : List Char) : Option (List Char × List Char) :=
  Text.splitFirst? sep.toList text

/-! ## Operands -/

/-- Reads an unsigned 32-bit number. -/
def nat32 (text : List Char) : Result Nat :=
  required (Text.nat32? text) (.number (String.ofList text))

/-- Reads an unsigned 64-bit number. -/
def nat64 (text : List Char) : Result Nat :=
  required (Text.nat64? text) (.number (String.ofList text))

/-- Reads a number after a lead. -/
def numbered (lead : String) (fault : String → ReadFault) (text : List Char) : Result Nat := do
  nat32 (← required (Text.after? lead.toList text) (fault (String.ofList text)))

/-- Reads a variable. -/
def var (text : List Char) : Result VarId := numbered "%" .variableName text

/-- Reads a slot. -/
def slot (text : List Char) : Result SlotId := numbered "$" .slotName text

/-- Reads a block name. -/
def block (text : List Char) : Result BlockId := numbered "bb" .blockName text

/-- Reads a type. -/
def type (text : List Char) : Result ValueType :=
  (ValueType.ofText (String.ofList text)).mapError .type

/-- What a character does to the depth of brackets, given the character before it. -/
def nesting (previous : Option Char) (c : Char) : Int :=
  if c = '[' ∨ c = '(' ∨ c = '<' then 1
  else if c = '>' ∧ previous = some '-' then 0
  else if c = ']' ∨ c = ')' ∨ c = '>' then -1
  else 0

/-- The parts of a list between the commas that are not inside brackets. -/
def listParts (depth : Int) (previous : Option Char) : List Char → List (List Char)
  | [] => [[]]
  | c :: text =>
    let parts := listParts (depth + nesting previous c) (some c) text
    if c = ',' ∧ depth = 0 then [] :: parts
    else
      match parts with
      | [] => [[c]]
      | part :: rest => (c :: part) :: rest

/-- The items of a list that is separated by commas. -/
def listItems (text : List Char) : List (List Char) :=
  if (Text.trim text).isEmpty then [] else (listParts 0 none text).map Text.trim

/-- Reads a list of variables. -/
def vars (text : List Char) : Result (List VarId) := (listItems text).mapM var

/-- The texts of two operands. -/
def pair (text : List Char) : Result (List Char × List Char) :=
  required (splitAt? ", " text) (.operands (String.ofList text))

/-- The text inside two delimiters. -/
def delimited (opening closing : Char) (text : List Char) : Result (List Char) :=
  required (Text.between? [opening] [closing] text) (.delimiters opening closing (String.ofList text))

/-- Reads a slot with a subscript, the text of which is given back. -/
def subscript (text : List Char) : Result (SlotId × List Char) := do
  let (name, rest) ← required (splitAt? "[" text) (.subscript (String.ofList text))
  let inner ← required (Text.before? [']'] rest) (.openSubscript (String.ofList text))
  return (← slot name, inner)

/-- Reads a quoted text, and gives back the text after it. -/
def quoted (text : List Char) : Result (String × List Char) :=
  (Text.Quoted.read text).mapError .quoted

/-- Reads a constant of a type. -/
def const (type : ValueType) (text : List Char) : Result Const :=
  let bad := ReadFault.badConstant type (String.ofList text)
  match type with
  | .int _ => return .int (← required (Text.int64? text) bad)
  | .float _ => return .float (← required (Double.parse? text) bad)
  | .bool =>
    if text = "true".toList then return .bool true
    else if text = "false".toList then return .bool false
    else throw bad
  | .str => do
    let (value, rest) ← quoted text
    if rest.isEmpty then return .str value else throw bad
  | _ => throw (.noConstants type)

/-- A trailing span, and the line before it. -/
def splitSpan (line : List Char) : List Char × Option Span :=
  let found := do
    let (head, tail) ← Text.splitLast? " @".toList line
    let (start, stop) ← splitAt? ".." tail
    let start ← Text.nat32? start
    let stop ← Text.nat32? stop
    return (head, some (⟨start, stop⟩ : Span))
  found.getD (line, none)

/-- The first word of a line and the rest. -/
def splitOp (line : List Char) : String × List Char :=
  let (op, rest) := (splitAt? " " line).getD (line, [])
  (String.ofList op, rest)

/-! ## Instructions -/

/-- Reads the calling convention after a call. -/
def convention (text : List Char) : Result Convention :=
  match Text.trim text with
  | [] => return .native
  | text => do
    let library ←
      required (Text.after? "c ".toList text) (.unknownConvention (String.ofList text))
    let (library, rest) ← quoted library
    if rest.isEmpty then return .foreign library else throw (.trailingCall (String.ofList rest))

/-- Reads a call. -/
def call (dst : Option VarId) (text : List Char) : Result Instr := do
  let (isTail, text) :=
    match Text.after? "tail ".toList text with
    | some rest => (true, rest)
    | none => (false, text)
  let rest ← required (Text.after? "call @".toList text) (.malformedCall (String.ofList text))
  let (callee, rest) ← required (splitAt? "(" rest) .noCallArguments
  let (args, rest) ← required (splitAt? ")" rest) .openCall
  let convention ← convention rest
  return .call dst (String.ofList callee) (← vars args) convention isTail

/-- Reads an instruction that sets a variable to the result of an operator. -/
def operation (dst : VarId) (op : String) (text : List Char) : Result Instr := do
  match BinaryOp.ofMnemonic? op with
  | some binary =>
    let (lhs, rhs) ← pair text
    return .set dst (.binary binary (← var lhs) (← var rhs))
  | none =>
    match UnaryOp.ofMnemonic? op with
    | some unary => return .set dst (.unary unary (← var text))
    | none =>
      let lanes :=
        match op.toList with
        | 'v' :: name => BinaryOp.ofMnemonic? (String.ofList name)
        | _ => none
      match lanes with
      | some binary =>
        let (lhs, rhs) ← pair text
        return .binaryLanes dst binary (← var lhs) (← var rhs)
      | none => throw (.unknownInstruction op)

/-- Reads an instruction that defines a variable. -/
def definition (dst : VarId) (type : ValueType) (line : List Char) : Result Instr := do
  let (op, rest) := splitOp line
  match op with
  | "const" => return .set dst (.const (← const type rest))
  | "copy" => return .set dst (.copy (← var rest))
  | "cast" => return .set dst (.cast (← var rest))
  | "call" | "tail" => call (some dst) line
  | "load" => return .load dst (← slot rest)
  | "global" =>
    let name ← required (Text.after? ['@'] rest) (.globalName (String.ofList rest))
    return .loadGlobal dst (String.ofList name)
  | "index" =>
    let (slot, index) ← subscript rest
    return .loadElement dst slot (← var index)
  | "array" => return .makeArray dst (← vars (← delimited '[' ']' rest))
  | "tuple" => return .makeTuple dst (← vars (← delimited '(' ')' rest))
  | "extract" =>
    let (tuple, index) ← pair rest
    return .extract dst (← var tuple) (← nat32 index)
  | "alloc" => return .alloc dst (← var rest)
  | "vload" =>
    let (slot, start) ← subscript rest
    return .loadLanes dst slot (← nat64 start)
  | _ => operation dst op rest

/-- Reads an instruction that defines no variable. -/
def effect (line : List Char) : Result Instr := do
  let (op, rest) := splitOp line
  match op with
  | "call" | "tail" => call none line
  | "store" =>
    let (target, value) ← required (splitAt? ", " rest) (.malformedStore (String.ofList line))
    let value ← var value
    if target.contains '[' then
      let (slot, index) ← subscript target
      return .storeElement slot (← var index) value
    else return .store (← slot target) value
  | "vstore" =>
    let (target, value) ← pair rest
    let (slot, start) ← subscript target
    return .storeLanes slot (← nat64 start) (← var value)
  | "bounds_check" =>
    let (index, length) ← pair rest
    return .boundsCheck (← var index) (← nat64 length)
  | "free" => return .free (← var rest)
  | "release" => return .release (← var rest)
  | _ => throw (.unknownInstruction op)

/-- Reads a terminator, if the line is one. -/
def terminator (line : List Char) : Result (Option Terminator) := do
  let (op, rest) := splitOp line
  match op with
  | "ret" => if rest.isEmpty then return some (.ret none) else return some (.ret (← var rest))
  | "unreachable" => return some .unreachable
  | "jump" =>
    match splitAt? "(" rest with
    | some (target, args) =>
      let args ← vars (← required (Text.before? [')'] args) .openJump)
      return some (.jump (← block target) args)
    | none => return some (.jump (← block rest) [])
  | "branch" =>
    match listItems rest with
    | [test, thenBlock, elseBlock] =>
      return some (.branch (← var test) (← block thenBlock) (← block elseBlock))
    | _ => throw (.malformedBranch (String.ofList line))
  | _ => return none

/-! ## Headers -/

/-- The flag of a name. -/
def flag (flags : Flags) (name : List Char) : Result Flags :=
  if name = "tail_recursive".toList then return { flags with tailRecursive := true }
  else if name = "generic_instance".toList then return { flags with genericInstance := true }
  else if name = "toplevel".toList then return { flags with topLevel := true }
  else throw (.unknownFlag (String.ofList name))

/--
Reads the flags and the entry block at the end of a header. `bound` is at least the number of words
left. What remains is the text of the result type.
-/
def attributes (flags : Flags) (entry : BlockId) (text : List Char) :
    Nat → Result (Flags × BlockId × List Char)
  | 0 => return (flags, entry, text)
  | bound + 1 =>
    match Text.splitLast? [' '] text with
    | none => return (flags, entry, text)
    | some (head, last) =>
      match Text.after? "flags=".toList last, Text.after? "entry=".toList last with
      | some names, _ => do
        let flags ← (Text.splitOn ',' names).foldlM flag flags
        attributes flags entry head bound
      | none, some name => do attributes flags (← block name) head bound
      | none, none => return (flags, entry, text)

/-- Reads the header of a function, which has no blocks yet. -/
def header (line : List Char) : Result Function := do
  let rest ←
    required (Text.between? "func @".toList " \x7b".toList line) (.header (String.ofList line))
  let (name, rest) ← required (splitAt? " -> " rest) .noResultType
  let (flags, entry, rest) ← attributes .none 0 rest rest.length
  return ⟨String.ofList name, [], ← type rest, [], entry, [], [], [], flags⟩

/-- The value of a field; of two fields with the same key the last counts. -/
def field (fields : List (String × List Char)) (key : String) : Result (List Char) :=
  required (fields.reverse.lookup key) (.missingField key)

/-- The value of a field that is a number. -/
def numberField (fields : List (String × List Char)) (key : String) : Result Int := do
  required (Text.int64? (← field fields key)) (.badField key)

/-- Reads the counter of a loop, if it has one. -/
def induction (fields : List (String × List Char)) : Result (Option Induction) := do
  if (fields.lookup "induction").isNone then return none
  let cmp ← field fields "cmp"
  let slot ← slot (← field fields "induction")
  let init ← numberField fields "init"
  let bound ← numberField fields "bound"
  let step ← numberField fields "step"
  let name := String.ofList cmp
  return some ⟨slot, init, bound, step, ← required (BinaryOp.ofMnemonic? name) (.unknownComparison name)⟩

/-- Reads a loop. -/
def loop (text : List Char) : Result LoopInfo := do
  let fields ← (Text.words text).mapM fun word => do
    let (key, value) ← required (splitAt? "=" word) (.malformedField (String.ofList word))
    return (String.ofList key, value)
  let names := Text.splitOn ',' (← field fields "blocks")
  let blocks ← (names.filter (!·.isEmpty)).mapM block
  let induction ← induction fields
  return ⟨← block (← field fields "preheader"), ← block (← field fields "header"),
    ← block (← field fields "latch"), ← block (← field fields "exit"), blocks, induction⟩

/-! ## Lines -/

/-- What has been read of a function. -/
inductive Stage where
  /-- Nothing. -/
  | start
  /-- The header line, but no block. -/
  | header
  /-- A block, perhaps with its terminator. -/
  | block (isTerminated : Bool)
  /-- The whole function. -/
  | done
deriving DecidableEq, Repr, Inhabited

/-- The lines read so far. -/
structure State where
  stage : Stage
  /-- The function without the types of its variables. -/
  function : Function
  types : List (VarId × ValueType)
deriving Repr, Inhabited

/-- The state before the first line. -/
def State.initial : State := ⟨.start, ⟨"", [], .none, [], 0, [], [], [], .none⟩, []⟩

/-- Gives a variable a type. -/
def define (s : State) (v : VarId) (type : ValueType) : Result State :=
  if (s.types.lookup v).isSome then throw (.definedTwice v)
  else return { s with types := (v, type) :: s.types }

/-- Reads a line between the header and the first block. -/
def headerItem (s : State) (line : List Char) : Result State := do
  let f := s.function
  match Text.after? "slot $".toList line with
  | some rest =>
    let (head, typeText) ← required (splitAt? ": " rest) (.malformedSlot (String.ofList line))
    let (index, name) :=
      match splitAt? " " head with
      | some (index, name) => (index, some (String.ofList name))
      | none => (head, none)
    let type ← type typeText
    if (← nat32 index) = f.slots.length then
      return { s with function := { f with slots := f.slots ++ [⟨name, type⟩] } }
    else throw (.slotOrder (String.ofList index))
  | none =>
    match Text.after? "loop ".toList line with
    | some rest => return { s with function := { f with loops := f.loops ++ [← loop rest] } }
    | none =>
      match Text.after? "dead ".toList line with
      | some rest =>
        let (name, typeText) ←
          required (splitAt? ": " rest) (.malformedDead (String.ofList line))
        let v ← var name
        define s v (← type typeText)
      | none => throw (.headerItem (String.ofList line))

/-- Reads the parameters of a block. -/
def params (s : State) : List (List Char) → Result (List VarId × State)
  | [] => return ([], s)
  | param :: rest => do
    let (name, typeText) ← required (splitAt? ": " param) (.malformedParam (String.ofList param))
    let v ← var name
    let s ← define s v (← type typeText)
    let (vs, s) ← params s rest
    return (v :: vs, s)

/-- Reads the first line of a block. -/
def blockHeader (s : State) (line : List Char) : Result State := do
  let head ← required (Text.before? [':'] line) (.blockHeader (String.ofList line))
  let (name, paramText) ←
    match splitAt? "(" head with
    | some (name, rest) => do
      let inner ← required (Text.before? [')'] rest) .openParams
      pure (name, inner)
    | none => pure (head, [])
  let id ← block name
  if id ≠ s.function.blocks.length then throw (.blockOrder id)
  let (vs, s) ← params s (listItems paramText)
  let blocks := s.function.blocks ++ [⟨vs, [], .unreachable⟩]
  return { s with stage := .block false, function := { s.function with blocks := blocks } }

/-- Changes the block that is being read. -/
def modifyLast (s : State) (change : Block → Block) : State :=
  { s with function := s.function.modifyBlock (s.function.blocks.length - 1) change }

/-- Reads an instruction or a terminator. -/
def blockLine (s : State) (line : List Char) : Result State := do
  match ← terminator line with
  | some t =>
    return { modifyLast s (fun b => { b with terminator := t }) with stage := .block true }
  | none =>
    let (line, span) := splitSpan line
    let (instr, s) ←
      if line.head? = some '%' then do
        let (lhs, rhs) ←
          required (splitAt? " = " line) (.malformedDefinition (String.ofList line))
        let (name, typeText) ← required (splitAt? ": " lhs) (.noType (String.ofList lhs))
        let v ← var name
        let type ← type typeText
        let instr ← definition v type rhs
        pure (instr, ← define s v type)
      else pure (← effect line, s)
    return modifyLast s fun b => { b with body := b.body ++ [⟨instr, span⟩] }

/-- Reads a line that is not empty. -/
def line (s : State) (text : List Char) : Result State :=
  let isBlock := (Text.after? "bb".toList text).isSome
  match s.stage with
  | .start => return { s with stage := .header, function := ← header text }
  | .done => throw (.afterEnd (String.ofList text))
  | .header =>
    if text = ['\x7d'] then throw .noTerminator
    else if isBlock then blockHeader s text
    else headerItem s text
  | .block true =>
    if text = ['\x7d'] then return { s with stage := .done }
    else if isBlock then blockHeader s text
    else throw (.afterTerminator (String.ofList text))
  | .block false => if text = ['\x7d'] then throw .noTerminator else blockLine s text

/-- Reads lines, the first of which has a number. -/
def lines (s : State) (number : Nat) : List (List Char) → Except ReadError State
  | [] => return s
  | text :: rest => do
    let text := Text.trim text
    if text.isEmpty then lines s (number + 1) rest
    else
      let s ← (line s text).mapError (⟨number, ·⟩)
      lines s (number + 1) rest

/--
The table of types, which has no gaps. If the greatest variable is not less than the number of
types, one of the first variables has none.
-/
def typeTable (types : List (VarId × ValueType)) : Result (List ValueType) :=
  let count := (types.map (·.1 + 1)).foldl max 0
  (List.range (min count (types.length + 1))).mapM fun v => required (types.lookup v) (.untyped v)

/-- The function that has been read. -/
def finish (s : State) : Result Function := do
  if s.stage ≠ .done then throw .unexpectedEnd
  let f := s.function
  let varTypes ← typeTable s.types
  match f.blocks[f.entry]? with
  | none => throw (.noEntry f.entry)
  | some entry => return { f with varTypes := varTypes, params := entry.params }

end Read

/-- Reads the written form of a function. -/
def Function.ofText (text : String) : Except ReadError Function := do
  let lines := Text.lines text.toList
  let s ← Read.lines .initial 1 lines
  (Read.finish s).mapError (⟨lines.length, ·⟩)

end FormCompiler.Flow
