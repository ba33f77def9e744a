import FormCompiler.Diagnostic.Basic
import FormCompiler.Flow.Graph

/-!
# Well-formed flow graphs

`Function.verify` checks that a function is well-formed: blocks, slots and variables exist, each
variable is defined once and before it is read, and operands have the types that instructions need.
`Program.verify` also checks calls and loads of globals against what the program declares.

The checks look up blocks and add numbers of 64 bits. `Function.verify?` and `Program.verify?` are the same checks
with what stops them.
-/

namespace FormCompiler.Flow

/-! ## Faults -/

/-- What a type should have been. -/
inductive Wanted where
  | type (type : ValueType)
  | aValue
  | anInteger
  | aNumber
  | aScalar
  | aVector
  | theConstantsType
deriving DecidableEq, Repr, Inhabited

/-- The written form of what was wanted. -/
def Wanted.text : Wanted → String
  | type t => t.text
  | aValue => "a value"
  | anInteger => "an integer"
  | aNumber => "a number"
  | aScalar => "a scalar"
  | aVector => "a vector"
  | theConstantsType => "the constant's type"

/-- Why a function is not well-formed. -/
inductive VerifyFault where
  | noEntry (b : BlockId)
  | entryParams
  | missingLoopBlock (b : BlockId)
  | untyped (v : VarId)
  | missingSlot (s : SlotId)
  | definedTwice (v : VarId)
  | undefined (v : VarId)
  | notDominated (v : VarId)
  | differ (a : VarId) (aType : ValueType) (b : VarId) (bType : ValueType)
  | wrongType (v : VarId) (found : ValueType) (wanted : Wanted)
  | notArray (s : SlotId) (found : ValueType)
  | arrayLiteral (found : ValueType)
  | elementCount (count : Nat) (type : ValueType)
  | notTuple (found : ValueType)
  | missingElement (index : Nat) (type : ValueType)
  | vectorOperation (found : ValueType)
  | notLaneWise (op : BinaryOp) (type : ValueType)
  | lanes (vector element : ValueType)
  | laneRange (start stop : Nat) (s : SlotId) (length : Nat)
  | noResult (type : ValueType)
  | missingTarget (b : BlockId)
  | jumpArguments (b : BlockId) (wanted found : Nat)
  | branchParams (b : BlockId)
  | convention
  | unknownCallee
  | argumentCount (found wanted : Nat)
  | droppedResult (type : ValueType)
  | unknownGlobal
deriving DecidableEq, Repr, Inhabited

/-- The message of a fault. -/
def VerifyFault.message : VerifyFault → String
  | noEntry b => s!"entry bb{b} does not exist"
  | entryParams => "entry block parameters differ from function parameters"
  | missingLoopBlock b => s!"loop refers to missing bb{b}"
  | untyped v => s!"%{v} has no type"
  | missingSlot s => s!"${s} does not exist"
  | definedTwice v => s!"%{v} defined more than once"
  | undefined v => s!"%{v} is used but never defined"
  | notDominated v => s!"use of %{v} is not dominated by its definition"
  | differ a aType b bType => s!"%{a}: {aType.text} and %{b}: {bType.text} differ"
  | wrongType v found wanted => s!"%{v} has type {found.text}, expected {wanted.text}"
  | notArray s found => s!"${s} holds {found.text}, not an array"
  | arrayLiteral found => s!"array literal typed {found.text}"
  | elementCount count type => s!"{count} elements for {type.text}"
  | notTuple found => s!"extract from {found.text}"
  | missingElement index type => s!"element {index} of {type.text} does not exist"
  | vectorOperation found => s!"vector operation on {found.text}"
  | notLaneWise op type => s!"`{op.mnemonic}` is not a lane-wise operation on {type.text}"
  | lanes vector element => s!"{vector.text} lanes differ from {element.text}"
  | laneRange start stop s length =>
    s!"lanes {start}..{stop} exceed ${s} of length {length}"
  | noResult type => s!"missing return value of type {type.text}"
  | missingTarget b => s!"jump to missing bb{b}"
  | jumpArguments b wanted found => s!"bb{b} takes {wanted} arguments, {found} passed"
  | branchParams b => s!"branch target bb{b} takes parameters"
  | convention => "calling convention differs from the callee's"
  | unknownCallee => "call to an unknown function"
  | argumentCount found wanted => s!"{found} arguments for {wanted} parameters"
  | droppedResult type => s!"result of type {type.text} is dropped"
  | unknownGlobal => "load of an unknown global"

/-- A fault and the block it is in. -/
structure VerifyError where
  block : Option BlockId
  fault : VerifyFault
deriving DecidableEq, Repr, Inhabited

/-- The message of an error. -/
def VerifyError.message (e : VerifyError) : String :=
  match e.block with
  | some b => s!"bb{b}: " ++ e.fault.message
  | none => e.fault.message

/-- The diagnostic of an error, which only the optimiser can have caused. -/
def VerifyError.diagnostic (e : VerifyError) : Diagnostic :=
  Diagnostic.ofCode .internalError ("optimised IR failed verification: " ++ e.message)

namespace Verify

/-- A check of a part of a function. -/
abbrev Result := Except VerifyFault

/-- Requires a condition. -/
def ensure (condition : Bool) (fault : VerifyFault) : Result Unit :=
  if condition then .ok () else .error fault

/-! ## Operands -/

/-- The type of a variable. -/
def varType (f : Function) (v : VarId) : Result ValueType :=
  match f.varTypes[v]? with
  | some type => .ok type
  | none => .error (.untyped v)

/-- The type of a slot. -/
def slotType (f : Function) (s : SlotId) : Result ValueType :=
  match f.slots[s]? with
  | some slot => .ok slot.type
  | none => .error (.missingSlot s)

/-- Requires that two variables have the same type. -/
def same (f : Function) (a b : VarId) : Result Unit := do
  let aType ← varType f a
  let bType ← varType f b
  ensure (aType = bType) (.differ a aType b bType)

/-- Requires that the type of a variable satisfies a condition. -/
def expectThat (f : Function) (v : VarId) (wanted : Wanted) (p : ValueType → Bool) :
    Result Unit := do
  let type ← varType f v
  ensure (p type) (.wrongType v type wanted)

/-- Requires that a variable has a type. -/
def expect (f : Function) (v : VarId) (type : ValueType) : Result Unit :=
  expectThat f v (.type type) (· = type)

/-- The element type and the length of the array in a slot. -/
def arrayIn (f : Function) (s : SlotId) : Result (ValueType × Nat) := do
  let type ← slotType f s
  match type.array? with
  | some found => return found
  | none => throw (.notArray s type)

/-! ## Instructions -/

/-- Whether a constant is of a type. -/
def constHasType : Const → ValueType → Bool
  | .int _, type => type.isInt
  | .float _, type => type.isFloat
  | .bool _, type => type = .bool
  | .str _, type => type = .str

/-- Checks what a variable is set to. -/
def value (f : Function) (dst : VarId) : Value → Result Unit
  | .const c => expectThat f dst .theConstantsType (constHasType c)
  | .copy source => same f dst source
  | .cast source => do
    expectThat f source .aNumber ValueType.isNumeric
    expectThat f dst .aNumber ValueType.isNumeric
  | .unary op operand => do
    same f dst operand
    match op with
    | .neg => expectThat f dst .aNumber ValueType.isNumeric
    | .not => expect f dst .bool
    | .bitNot => expectThat f dst .anInteger ValueType.isInt
  | .binary op lhs rhs => do
    same f lhs rhs
    if op.isComparison then
      expectThat f lhs .aScalar ValueType.isScalar
      expect f dst .bool
    else if op.isLogical then
      expect f lhs .bool
      expect f dst .bool
    else if op.isBitwise then
      expectThat f lhs .anInteger ValueType.isInt
      same f dst lhs
    else
      expectThat f lhs .aNumber ValueType.isNumeric
      same f dst lhs

/-- Checks that a vector matches a range of elements. -/
def lanes (f : Function) (v : VarId) (s : SlotId) (start : Nat) : Result Unit := do
  let (element, length) ← arrayIn f s
  match ← varType f v with
  | .vector lane width =>
    ensure (lane = element) (.lanes (.vector lane width) element)
    ensure (start + width ≤ length) (.laneRange start (start + width) s length)
  | type => throw (.wrongType v type .aVector)

/-- Whether an operator works on each lane of a vector by itself. -/
def isLaneWise (op : BinaryOp) (lane : ValueType) : Bool :=
  op == .add || op == .sub || op == .mul || (op.isBitwise && lane.isInt)

/-- Checks an instruction. -/
def instr (f : Function) : Instr → Result Unit
  | .set dst v => value f dst v
  | .call (some dst) .. => expectThat f dst .aValue fun type => !type.isNone
  | .call none .. => return
  | .load dst s => do expect f dst (← slotType f s)
  | .store s v => do expect f v (← slotType f s)
  | .loadGlobal .. => return
  | .loadElement v s index | .storeElement s index v => do
    let (element, _) ← arrayIn f s
    expectThat f index .anInteger ValueType.isInt
    expect f v element
  | .boundsCheck index _ => expectThat f index .anInteger ValueType.isInt
  | .makeArray dst elements => do
    let type ← varType f dst
    match type.array? with
    | some (element, length) =>
      ensure (length = elements.length) (.elementCount elements.length type)
      elements.forM fun e => expect f e element
    | none => throw (.arrayLiteral type)
  | .makeTuple dst elements => do
    let types ← elements.mapM (varType f)
    expect f dst (.tuple types)
  | .extract dst tuple index => do
    match ← varType f tuple with
    | .tuple elements =>
      match elements[index]? with
      | some element => expect f dst element
      | none => throw (.missingElement index (.tuple elements))
    | type => throw (.notTuple type)
  | .alloc dst size => do
    expectThat f size .anInteger ValueType.isInt
    expect f dst .ptr
  | .free pointer | .release pointer => expect f pointer .ptr
  | .loadLanes v s start | .storeLanes s start v => lanes f v s start
  | .binaryLanes dst op lhs rhs => do
    same f lhs rhs
    same f dst lhs
    match ← varType f dst with
    | .vector lane width =>
      ensure (isLaneWise op lane) (.notLaneWise op (.vector lane width))
    | type => throw (.vectorOperation type)

/-- Checks a terminator. -/
def terminator (f : Function) : Terminator → Result Unit
  | .ret (some v) => expect f v f.result
  | .ret none => ensure f.result.isNone (.noResult f.result)
  | .jump target args => do
    ensure (target < f.blocks.length) (.missingTarget target)
    let params := (f.block target).params
    ensure (params.length = args.length) (.jumpArguments target params.length args.length)
    (args.zip params).forM fun (arg, param) => same f arg param
  | .branch test thenBlock elseBlock => do
    expect f test .bool
    [thenBlock, elseBlock].forM fun target => do
      ensure (target < f.blocks.length) (.missingTarget target)
      ensure (f.block target).params.isEmpty (.branchParams target)
  | .unreachable => return

/-! ## Blocks -/

/-- Runs a check in every block. -/
def eachBlock (f : Function) (check : BlockId → Block → Result Unit) : Except VerifyError Unit :=
  f.blocks.zipIdx.forM fun (b, id) => (check id b).mapError (⟨some id, ·⟩)

/-- Checks the instructions and the terminator of a block. -/
def block (f : Function) (b : Block) : Result Unit := do
  b.instrs.forM (instr f)
  terminator f b.terminator

/-- Checks the entry and the blocks that loops name. -/
def shape (f : Function) : Result Unit := do
  ensure (f.entry < f.blocks.length) (.noEntry f.entry)
  ensure ((f.block f.entry).params = f.params) .entryParams
  f.loops.forM fun l =>
    (l.preheader :: l.header :: l.latch :: l.exit :: l.blocks).forM fun b =>
      ensure (b < f.blocks.length) (.missingLoopBlock b)

/-! ## Definitions and uses -/

/-- Where a variable is defined; a parameter has no position in the body. -/
structure Site where
  block : BlockId
  position : Option Nat
deriving DecidableEq, Repr, Inhabited

/-- The definitions of a block. -/
def sites (id : BlockId) (b : Block) : List (VarId × Site) :=
  b.params.map (fun v => (v, ⟨id, none⟩)) ++
    b.instrs.zipIdx.filterMap fun (i, position) => i.def?.map (·, ⟨id, some position⟩)

/-- All definitions of a function. -/
def allSites (f : Function) : List (VarId × Site) :=
  f.blocks.zipIdx.flatMap fun (b, id) => sites id b

/-- Checks that definitions have types and that none has a variable of an earlier one. -/
def definitions (f : Function) (earlier : List VarId) :
    List (VarId × Site) → Except VerifyError Unit
  | [] => return
  | (v, site) :: rest => do
    if f.varTypes.length ≤ v then throw ⟨some site.block, .untyped v⟩
    if earlier.contains v then throw ⟨some site.block, .definedTwice v⟩
    definitions f (v :: earlier) rest

/-- The reads of a block, each with the number of instructions before it. -/
def reads (b : Block) : List (VarId × Nat) :=
  b.instrs.zipIdx.flatMap (fun (i, position) => i.uses.map (·, position)) ++
    b.terminator.uses.map (·, b.body.length)

/-- Checks that a variable is defined before it is read in a block. -/
def definedBefore (f : Function) (definitions : List (VarId × Site)) (id : BlockId) (v : VarId)
    (position : Nat) : Result Unit :=
  match definitions.lookup v with
  | none => throw (.undefined v)
  | some site =>
    let ok :=
      if site.block = id then site.position.all (· < position) else f.dominates site.block id
    ensure ok (.notDominated v)

/-- Checks that the variables that a reachable block reads are defined before. -/
def dominance (f : Function) (id : BlockId) (b : Block) : Result Unit := do
  if f.isReachable id then
    (reads b).forM fun (v, position) => definedBefore f (allSites f) id v position

end Verify

/-- Checks that a function is well-formed. -/
def Function.verify (f : Function) : Except VerifyError Unit := do
  (Verify.shape f).mapError (⟨none, ·⟩)
  Verify.definitions f [] (Verify.allSites f)
  Verify.eachBlock f fun _ b => Verify.block f b
  Verify.eachBlock f (Verify.dominance f)

namespace Verify

/-- The types of the parameters and of the result of a callee. -/
def callee (p : Program) (name : String) (convention : Convention) :
    Result (List ValueType × ValueType) :=
  match p.function? name, p.external? name with
  | some f, _ => return (f.params.map f.varType, f.result)
  | none, some e => do
    ensure ((convention != .native) == e.library.isSome) .convention
    return (e.params, e.result)
  | none, none => throw .unknownCallee

/-- Checks a call or a load of a global against what the program declares. -/
def reference (p : Program) (f : Function) : Instr → Result Unit
  | .call dst name args convention _ => do
    let (params, result) ← callee p name convention
    ensure (params.length = args.length) (.argumentCount args.length params.length)
    (args.zip params).forM fun (arg, param) => expect f arg param
    match dst with
    | some dst => expect f dst result
    | none => ensure result.isNone (.droppedResult result)
  | .loadGlobal dst name =>
    match p.global? name with
    | some g => expect f dst g.type
    | none => throw .unknownGlobal
  | _ => return

end Verify

/-- Checks that all functions of a program are well-formed and refer only to what it declares. -/
def Program.verify (p : Program) : Except VerifyError Unit :=
  p.functions.forM fun f => do
    f.verify
    Verify.eachBlock f fun _ b => b.instrs.forM (Verify.reference p f)

/-! ## Checks that are stopped -/

namespace Verify

/-- A check that may be stopped, by a block that is not there or by a number that is no word. -/
abbrev Stoppable (ε : Type) := ExceptT ε Option

/-- A check that is not stopped. -/
def unstopped (check : Except ε α) : Stoppable ε α := ExceptT.mk (some check)

/-- A check that is stopped. -/
def stopped : Stoppable ε α := ExceptT.mk none

/-- The block with a number. -/
def blockAt (f : Function) (id : BlockId) : Stoppable ε Block :=
  match f.blocks[id]? with
  | some b => unstopped (.ok b)
  | none => stopped

/-- The sum of two words. -/
def addWords (a b : Nat) : Stoppable ε Nat :=
  if a + b < twoPow 64 then unstopped (.ok (a + b)) else stopped

/-- As `lanes`, where the end of the range is a word. -/
def lanes? (f : Function) (v : VarId) (s : SlotId) (start : Nat) : Stoppable VerifyFault Unit := do
  let (element, length) ← unstopped (arrayIn f s)
  match ← unstopped (varType f v) with
  | .vector lane width =>
    unstopped (ensure (lane = element) (.lanes (.vector lane width) element))
    let stop ← addWords start width
    unstopped (ensure (stop ≤ length) (.laneRange start stop s length))
  | type => unstopped (.error (.wrongType v type .aVector))

/-- As `instr`, where the ends of ranges of lanes are words. -/
def instr? (f : Function) : Instr → Stoppable VerifyFault Unit
  | .loadLanes v s start | .storeLanes s start v => lanes? f v s start
  | i => unstopped (instr f i)

/-- As `terminator`, where the targets are looked up. -/
def terminator? (f : Function) : Terminator → Stoppable VerifyFault Unit
  | .jump target args => do
    unstopped (ensure (target < f.blocks.length) (.missingTarget target))
    let params := (← blockAt f target).params
    unstopped (ensure (params.length = args.length) (.jumpArguments target params.length args.length))
    unstopped ((args.zip params).forM fun (arg, param) => same f arg param)
  | .branch test thenBlock elseBlock => do
    unstopped (expect f test .bool)
    [thenBlock, elseBlock].forM fun target => do
      unstopped (ensure (target < f.blocks.length) (.missingTarget target))
      unstopped (ensure (← blockAt f target).params.isEmpty (.branchParams target))
  | t => unstopped (terminator f t)

/-- As `block`. -/
def block? (f : Function) (b : Block) : Stoppable VerifyFault Unit := do
  b.instrs.forM (instr? f)
  terminator? f b.terminator

/-- As `shape`, where the entry is looked up. -/
def shape? (f : Function) : Stoppable VerifyFault Unit := do
  unstopped (ensure (f.entry < f.blocks.length) (.noEntry f.entry))
  unstopped (ensure ((← blockAt f f.entry).params = f.params) .entryParams)
  unstopped (f.loops.forM fun l =>
    (l.preheader :: l.header :: l.latch :: l.exit :: l.blocks).forM fun b =>
      ensure (b < f.blocks.length) (.missingLoopBlock b))

/-- The search for the blocks that dominate others looks up the entry and all targets. -/
def graph? (f : Function) : Stoppable VerifyFault Unit := do
  let _ ← blockAt f f.entry
  f.blocks.forM fun b => b.terminator.successors.forM fun next => do
    let _ ← blockAt f next

end Verify

/-- As `verify`; there is no answer if the checks are stopped. -/
def Function.verify? (f : Function) : Option (Except VerifyError Unit) := ExceptT.run do
  (Verify.shape? f).adapt (⟨none, ·⟩)
  Verify.unstopped (Verify.definitions f [] (Verify.allSites f))
  f.blocks.zipIdx.forM fun (b, id) => (Verify.block? f b).adapt (⟨some id, ·⟩)
  (Verify.graph? f).adapt (⟨none, ·⟩)
  Verify.unstopped (Verify.eachBlock f (Verify.dominance f))

/-- As `verify`; there is no answer if the checks of a function are stopped. -/
def Program.verify? (p : Program) : Option (Except VerifyError Unit) :=
  ExceptT.run (p.functions.forM fun f => do
    ExceptT.mk f.verify?
    Verify.unstopped (Verify.eachBlock f fun _ b => b.instrs.forM (Verify.reference p f)))

end FormCompiler.Flow
