import FormCompiler.Flow.Print
import FormCompiler.Machine.Basic

/-!
# The text of machine code

An object is written like assembly text: its functions, one instruction in a line, and then its
symbols.
-/

namespace FormCompiler.Machine

open FormCompiler.Flow

/-- The written form of a register. -/
def regText (r : Reg) : String := s!"r{r}"

/-- The written form of a word of the frame. -/
def frameText (offset : Nat) : String := s!"[fp+{offset}]"

/-- The written form of an operand. -/
def Operand.text : Operand Reg → String
  | reg r => regText r
  | imm n => s!"#{n}"
  | float bits => "#" ++ Double.render bits
  | frame offset => frameText offset

/-- The written form of an address. -/
def Address.text : Address Reg → String
  | frame offset => frameText offset
  | element base index scale => s!"[fp+{base}+{regText index}*{scale}]"
  | based base offset => s!"[{regText base}+{offset}]"
  | symbol name => s!"[@{name}]"

/-- The written form of a list of operands. -/
def operandsText (operands : List (Operand Reg)) : String :=
  ", ".intercalate (operands.map Operand.text)

/-- The written form of an instruction: what it does, and what with, separated by commas. -/
def instrText (operation : String) (parts : List String) : String :=
  operation ++ " " ++ ", ".intercalate parts

/-- The written form of an instruction. -/
def Instr.text : Instr Reg → String
  | move dst source => instrText "mov" [regText dst, source.text]
  | binary op dst lhs rhs =>
    instrText (op.mnemonic ++ if rhs.isImmediate then "i" else "")
      [regText dst, lhs.text, rhs.text]
  | unary op dst source => instrText op.mnemonic [regText dst, source.text]
  | convert dst source type => instrText "cvt" [regText dst, source.text, type.text]
  | load dst address => instrText "ld" [regText dst, address.text]
  | store address source => instrText "st" [address.text, source.text]
  | locate dst address => instrText "lea" [regText dst, address.text]
  | copy dst source words => instrText "copy" [dst.text, source.text, toString words]
  | check index length => instrText "chk" [index.text, toString length]
  | call callee convention args dst =>
    let library := match convention with
      | .native => ""
      | .foreign library => s!"c {Text.Quoted.write library} "
    let result := match dst with
      | some dst => " -> " ++ regText dst
      | none => ""
    s!"call {library}@{callee}({operandsText args}){result}"
  | alloc dst size => instrText "alloc" [regText dst, size.text]
  | free pointer => instrText "free" [regText pointer]
  | loadLanes dst address width => instrText s!"vld.{width}" [regText dst, address.text]
  | storeLanes address source width => instrText s!"vst.{width}" [address.text, source.text]
  | binaryLanes op dst lhs rhs width =>
    instrText s!"v{op.mnemonic}.{width}" [regText dst, regText lhs, regText rhs]

/-- The written form of a control transfer. -/
def Control.text : Control Reg → String
  | jump target => "jmp " ++ blockText target
  | branch test thenBlock elseBlock =>
    instrText "br" [regText test, blockText thenBlock, blockText elseBlock]
  | compareBranch op lhs rhs thenBlock elseBlock =>
    instrText ("b" ++ op.mnemonic) [lhs.text, rhs.text, blockText thenBlock, blockText elseBlock]
  | ret (some value) => "ret " ++ value.text
  | ret none => "ret"
  | trap => "trap"

/-- The lines of a block. -/
def Block.lines (b : Block) : List String :=
  (blockText b.id ++ ":") ::
    (b.body.map Instr.text ++ b.control.toList.map Control.text).map ("  " ++ ·)

/-- The lines of a function. -/
def Function.lines (f : Function) : List String :=
  let spills := if f.spills = 0 then "" else s!" spills={f.spills}"
  s!"func @{f.name}({operandsText f.params}) frame={f.frameSize}{spills}" ::
    f.blocks.flatMap Block.lines

/-- The written form of a symbol. -/
def Symbol.text (s : Symbol) : String :=
  match s.kind with
  | .function => s!"func   @{s.name}"
  | .global init => s!"global @{s.name} = {init}"
  | .data text => s!"data   @{s.name} = {Text.Quoted.write text}"
  | .external (some library) => s!"extern @{s.name} from {Text.Quoted.write library}"
  | .external none => s!"extern @{s.name}"

/-- The lines of an object. -/
def ObjectModule.lines (o : ObjectModule) : List String :=
  ["module " ++ o.name] ++ o.functions.flatMap (fun f => "" :: f.lines) ++
    ["", "symbols:"] ++ o.symbols.map fun s => "  " ++ s.text

/-- The written form of an object. -/
def ObjectModule.text (o : ObjectModule) : String := String.join (o.lines.map (· ++ "\n"))

end FormCompiler.Machine
