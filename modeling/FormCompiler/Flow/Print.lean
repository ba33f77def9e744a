import FormCompiler.Double.Text
import FormCompiler.Flow.Basic
import FormCompiler.Text.Quoted

/-!
# The written form of flow graphs

A function is written line by line: a header, its slots and loops, the variables that have a type
but no definition, and then its blocks with one instruction in each line.

    func @half -> i64 {
      slot $0 n: i64
    bb0(%0: i64):
      store $0, %0
      %1: i64 = const 2 @23..24
      %2: i64 = div %0, %1 @20..25
      ret %2
    }

A definition carries the type of its variable, and an instruction the span of the text it was made
from, so that all of the function can be read back.
-/

namespace FormCompiler

mutual

/-- The written form of a constant value. -/
def ConstValue.text : ConstValue → String
  | .int n => toString n
  | .frac bits => Double.render bits
  | .bool b => toString b
  | .str s => Text.Quoted.write s
  | .array items => "[" ++ ", ".intercalate (constTexts items) ++ "]"
  | .tuple items => "(" ++ ", ".intercalate (constTexts items) ++ ")"

/-- The written forms of constant values. -/
def constTexts : List ConstValue → List String
  | [] => []
  | value :: values => value.text :: constTexts values

end

namespace Flow

/-! ## Names and operands -/

/-- The written form of a variable. -/
def varText (v : VarId) : String := s!"%{v}"

/-- The written form of a block name. -/
def blockText (b : BlockId) : String := s!"bb{b}"

/-- The written form of a slot. -/
def slotText (s : SlotId) : String := s!"${s}"

/-- The written form of a list of variables. -/
def varsText (vars : List VarId) : String := ", ".intercalate (vars.map varText)

/-- The written form of a variable with a type. -/
def typedText (v : VarId) (type : ValueType) : String := varText v ++ ": " ++ type.text

/-- The written form of a constant. -/
def Const.text : Const → String
  | int n => toString n
  | float bits => Double.render bits
  | bool b => toString b
  | str s => Text.Quoted.write s

/-! ## Instructions -/

/-- The written form of a value. -/
def Value.text : Value → String
  | const c => "const " ++ c.text
  | copy v => "copy " ++ varText v
  | binary op lhs rhs => op.mnemonic ++ " " ++ varText lhs ++ ", " ++ varText rhs
  | unary op v => op.mnemonic ++ " " ++ varText v
  | cast v => "cast " ++ varText v

/-- The written form of a calling convention, after a call. -/
def Convention.text : Convention → String
  | native => ""
  | foreign library => " c " ++ Text.Quoted.write library

/-- The written form of an instruction without its destination. -/
def Instr.operationText : Instr → String
  | set _ value => value.text
  | call _ callee args convention isTail =>
    (if isTail then "tail " else "") ++ "call @" ++ callee ++ "(" ++ varsText args ++ ")" ++
      convention.text
  | load _ slot => "load " ++ slotText slot
  | store slot value => "store " ++ slotText slot ++ ", " ++ varText value
  | loadGlobal _ name => "global @" ++ name
  | loadElement _ slot index => "index " ++ slotText slot ++ "[" ++ varText index ++ "]"
  | storeElement slot index value =>
    "store " ++ slotText slot ++ "[" ++ varText index ++ "], " ++ varText value
  | boundsCheck index length => "bounds_check " ++ varText index ++ ", " ++ toString length
  | makeArray _ elements => "array [" ++ varsText elements ++ "]"
  | makeTuple _ elements => "tuple (" ++ varsText elements ++ ")"
  | extract _ tuple index => "extract " ++ varText tuple ++ ", " ++ toString index
  | alloc _ size => "alloc " ++ varText size
  | free pointer => "free " ++ varText pointer
  | release pointer => "release " ++ varText pointer
  | loadLanes _ slot start => "vload " ++ slotText slot ++ "[" ++ toString start ++ "]"
  | storeLanes slot start value =>
    "vstore " ++ slotText slot ++ "[" ++ toString start ++ "], " ++ varText value
  | binaryLanes _ op lhs rhs => "v" ++ op.mnemonic ++ " " ++ varText lhs ++ ", " ++ varText rhs

/-- The written form of an instruction; `types` gives the types of variables. -/
def Instr.text (types : VarId → ValueType) (instr : Instr) : String :=
  match instr.def? with
  | some dst => typedText dst (types dst) ++ " = " ++ instr.operationText
  | none => instr.operationText

/-- The written form of an instruction with its span. -/
def Line.text (types : VarId → ValueType) (line : Line) : String :=
  match line.span with
  | some span => line.instr.text types ++ " @" ++ span.text
  | none => line.instr.text types

/-- The written form of a terminator. -/
def Terminator.text : Terminator → String
  | ret (some v) => "ret " ++ varText v
  | ret none => "ret"
  | jump target [] => "jump " ++ blockText target
  | jump target args => "jump " ++ blockText target ++ "(" ++ varsText args ++ ")"
  | branch test thenBlock elseBlock =>
    "branch " ++ varText test ++ ", " ++ blockText thenBlock ++ ", " ++ blockText elseBlock
  | unreachable => "unreachable"

/-! ## Functions -/

/-- The lines of a block. -/
def Block.lines (types : VarId → ValueType) (id : BlockId) (b : Block) : List String :=
  let params :=
    if b.params.isEmpty then ""
    else "(" ++ ", ".intercalate (b.params.map fun p => typedText p (types p)) ++ ")"
  (blockText id ++ params ++ ":") :: b.body.map (fun line => "  " ++ line.text types) ++
    ["  " ++ b.terminator.text]

/-- The line of a slot. -/
def Slot.text (id : SlotId) (s : Slot) : String :=
  "  slot " ++ slotText id ++ (s.name.elim "" (" " ++ ·)) ++ ": " ++ s.type.text

/-- The written form of the counter of a loop. -/
def Induction.text (i : Induction) : String :=
  " induction=" ++ slotText i.slot ++ " init=" ++ toString i.init ++ " cmp=" ++ i.cmp.mnemonic ++
    " bound=" ++ toString i.bound ++ " step=" ++ toString i.step

/-- The line of a loop. -/
def LoopInfo.text (l : LoopInfo) : String :=
  "  loop preheader=" ++ blockText l.preheader ++ " header=" ++ blockText l.header ++
    " latch=" ++ blockText l.latch ++ " exit=" ++ blockText l.exit ++
    " blocks=" ++ ",".intercalate (l.blocks.map blockText) ++ (l.induction.elim "" Induction.text)

/-- The names of the flags that are set. -/
def Flags.names (flags : Flags) : List String :=
  (if flags.tailRecursive then ["tail_recursive"] else []) ++
    (if flags.genericInstance then ["generic_instance"] else []) ++
    (if flags.topLevel then ["toplevel"] else [])

namespace Function

/-- Whether a variable has a definition. -/
def isDefined (f : Function) (v : VarId) : Bool := f.blocks.any fun b => b.defs.contains v

/-- The header line. -/
def header (f : Function) : String :=
  "func @" ++ f.name ++ " -> " ++ f.result.text ++
    (if f.entry = 0 then "" else " entry=" ++ blockText f.entry) ++
    (if f.flags.names.isEmpty then "" else " flags=" ++ ",".intercalate f.flags.names) ++ " \x7b"

/-- The lines of the variables without a definition. -/
def deadLines (f : Function) : List String :=
  (f.varTypes.zipIdx.filter fun (_, v) => !f.isDefined v).map fun (type, v) =>
    "  dead " ++ typedText v type

/-- The lines of a function. -/
def lines (f : Function) : List String :=
  f.header :: f.slots.zipIdx.map (fun (s, id) => s.text id) ++ f.loops.map LoopInfo.text ++
    f.deadLines ++ f.blocks.zipIdx.flatMap (fun (b, id) => b.lines f.varType id) ++ ["\x7d"]

/-- The written form of a function. -/
def text (f : Function) : String := String.join (f.lines.map (· ++ "\n"))

end Function

/-! ## Programs -/

/-- The line of a global constant. -/
def Global.text (g : Global) : String :=
  "global @" ++ g.name ++ ": " ++ g.type.text ++ " = " ++ g.init.text ++ "\n"

/-- The line of an external function. -/
def ExternalSymbol.text (e : ExternalSymbol) : String :=
  "extern @" ++ e.name ++ "(" ++ ", ".intercalate (e.params.map ValueType.text) ++ ") -> " ++
    e.result.text ++ (e.library.elim "" fun library => " from " ++ Text.Quoted.write library) ++ "\n"

/-- The written form of a program: functions are separated by empty lines. -/
def Program.text (p : Program) : String :=
  let declarations := String.join (p.globals.map Global.text ++ p.externals.map ExternalSymbol.text)
  let functions := "\n".intercalate (p.functions.map Function.text)
  if declarations.isEmpty || p.functions.isEmpty then declarations ++ functions
  else declarations ++ "\n" ++ functions

end Flow

end FormCompiler
