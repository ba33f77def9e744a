import FormCompiler.Flow.Graph
import Mathlib

/-!
# Running flow graphs

What a function does, block by block. Variables and slots hold *values*: arrays, tuples and vectors
are values as well, so that no two variables share memory. Integers are those of 64 bits in two's
complement, and division by zero traps.

What surrounds a function is a *world*, which says what floating-point operations and conversions
compute, what globals are, and what is answered to calls and allocations. Calls, allocations and
releases are events. The answers may depend on all events so far, so that two functions with the same
events cannot be told apart.

All operations have results, also on values of the wrong kind: an element that an array does not have
is `Val.nothing`, and storing it changes nothing. Only a division, a bounds check, a callee and an
`unreachable` terminator can trap.
-/

namespace FormCompiler

/-- The integer of 64 bits, in two's complement, that is congruent to an integer. -/
def Word.wrap (n : Int) : Int := (Word.bits n).toInt

namespace Flow

/-! ## Values -/

/-- What variables and slots hold. -/
inductive Val where
  | int (n : Int)
  | float (bits : UInt64)
  | bool (b : Bool)
  | str (text : String)
  | ptr (address : Nat)
  | array (elements : List Val)
  | tuple (elements : List Val)
  | vector (lanes : List Val)
  | nothing
deriving Inhabited

namespace Val

/-- The element of an array at an index. -/
def element : Val → Val → Val
  | array elements, int n => if 0 ≤ n then elements.getD n.toNat nothing else nothing
  | _, _ => nothing

/-- The array with another element at an index. -/
def setElement : Val → Val → Val → Val
  | array elements, int n, x => if 0 ≤ n then array (elements.set n.toNat x) else array elements
  | v, _, _ => v

/-- A part of a tuple. -/
def part (i : Nat) : Val → Val
  | tuple elements => elements.getD i nothing
  | _ => nothing

/-- The lanes of a vector. -/
def lanes : Val → List Val
  | vector lanes => lanes
  | _ => []

/-- Whether a branch on a value goes to its first target. -/
def isTrue : Val → Bool
  | bool b => b
  | _ => false

/-- Whether an integer division by a value traps. -/
def isZero : Val → Bool
  | int n => n == 0
  | _ => false

/-- Whether a value is an index below a length. -/
def isBelow (length : Nat) : Val → Bool
  | int n => 0 ≤ n && n < length
  | _ => false

end Val

/-- The value of a constant. -/
def Const.val : Const → Val
  | int n => .int n
  | float bits => .float bits
  | bool b => .bool b
  | str text => .str text

/-- The number of lanes of a vector type. -/
def laneCount : ValueType → Nat
  | .vector _ width => width
  | _ => 0

/-- The type of the lanes of a vector type. -/
def laneType : ValueType → ValueType
  | .vector lane _ => lane
  | _ => .none

/-! ## Worlds -/

/-- What a run shows. -/
inductive Event where
  | call (callee : String) (convention : Convention) (args : List Val)
  | alloc (size : Val)
  | free (pointer : Val)
  | release (pointer : Val)

/-- What surrounds a function. -/
structure World where
  /-- The value of a global constant or function. -/
  global : String → Val
  /-- The outcome of an operation on floating-point numbers, or on values of the wrong kind. -/
  binary : BinaryOp → ValueType → Val → Val → Val
  unary : UnaryOp → ValueType → Val → Val
  /-- The conversion of a number to a type. -/
  convert : ValueType → Val → Val
  /-- The answer to the call that ends the events so far; the callee traps if there is none. -/
  reply : List Event → Option Val
  /-- The answer to the allocation that ends the events so far. -/
  pointer : List Event → Val

namespace World

/-- An operation on integers. -/
def binaryInt (W : World) (op : BinaryOp) (type : ValueType) (a b : Int) : Val :=
  match op with
  | .add => .int (Word.wrap (a + b))
  | .sub => .int (Word.wrap (a - b))
  | .mul => .int (Word.wrap (a * b))
  | .div => .int (Word.wrap (a.tdiv b))
  | .mod => .int (a.tmod b)
  | .bitAnd => .int (Word.bitAnd a b)
  | .bitOr => .int (Word.bitOr a b)
  | .bitXor => .int (Word.bitXor a b)
  | .shl =>
    match Word.shiftAmount? 64 b with
    | some amount => .int (Word.shiftLeft a amount)
    | none => W.binary op type (.int a) (.int b)
  | .shr =>
    match Word.shiftAmount? 64 b with
    | some amount => .int (Word.shiftRight a amount)
    | none => W.binary op type (.int a) (.int b)
  | .eq => .bool (a == b)
  | .ne => .bool (a != b)
  | .lt => .bool (a < b)
  | .le => .bool (a ≤ b)
  | .gt => .bool (b < a)
  | .ge => .bool (b ≤ a)
  | .and | .or => W.binary op type (.int a) (.int b)

/-- The outcome of a binary operation whose result has a type. -/
def apply (W : World) (op : BinaryOp) (type : ValueType) : Val → Val → Val
  | .int a, .int b => W.binaryInt op type a b
  | .bool a, .bool b =>
    match op with
    | .and => .bool (a && b)
    | .or => .bool (a || b)
    | .eq => .bool (a == b)
    | .ne => .bool (a != b)
    | op => W.binary op type (.bool a) (.bool b)
  | .str a, .str b =>
    match op with
    | .eq => .bool (a == b)
    | .ne => .bool (a != b)
    | op => W.binary op type (.str a) (.str b)
  | a, b => W.binary op type a b

/-- The outcome of a unary operation whose result has a type. -/
def applyUnary (W : World) (op : UnaryOp) (type : ValueType) (a : Val) : Val :=
  match op, a with
  | .neg, .int n => .int (Word.wrap (-n))
  | .not, .bool b => .bool !b
  | .bitNot, .int n => .int (Word.bitNot n)
  | op, a => W.unary op type a

end World

/-- Why a run ends. -/
inductive Stop where
  /-- The function returned; the slots had these contents. -/
  | returned (trace : List Event) (slots : SlotId → Val) (value : Option Val)
  | trapped (trace : List Event)
  /-- A callee was given too few steps. -/
  | unfinished (trace : List Event)

/-- How calls are answered: what has happened after the call, and the result. -/
abbrev Caller := List Event → String → Convention → List Val → Except Stop (List Event × Val)

/-- The world answers all calls. -/
def World.caller (W : World) : Caller := fun trace callee convention args =>
  let trace := trace ++ [.call callee convention args]
  match W.reply trace with
  | some v => .ok (trace, v)
  | none => .error (.trapped trace)

/-! ## Instructions -/

/-- The contents of slots, and what has happened so far. -/
structure Store where
  slots : SlotId → Val
  trace : List Event

namespace Store

/-- The store with a slot set. -/
def set (s : Store) (slot : SlotId) (x : Val) : Store :=
  { s with slots := Function.update s.slots slot x }

/-- The store after an event. -/
def log (s : Store) (e : Event) : Store := { s with trace := s.trace ++ [e] }

end Store

/-- What a variable of a type is set to, unless there is a trap. -/
def Value.eval (W : World) (type : ValueType) (vars : VarId → Val) : Value → Option Val
  | const c => some c.val
  | copy v => some (vars v)
  | binary op lhs rhs =>
    if op.mayTrap && (vars rhs).isZero then none else some (W.apply op type (vars lhs) (vars rhs))
  | unary op v => some (W.applyUnary op type (vars v))
  | cast v => some (W.convert type (vars v))

/-- The elements of an array from a position on. -/
def lanesFrom (array : Val) (start width : Nat) : List Val :=
  (List.range width).map fun j => array.element (.int (start + j : Nat))

/-- The array with some values as its elements from a position on. -/
def setFrom (array : Val) (start : Nat) : List Val → Val
  | [] => array
  | x :: xs => setFrom (array.setElement (.int start) x) (start + 1) xs

/--
What an instruction computes for the variable that it defines, and does to the store; `type` gives
the types of variables.
-/
def Instr.act (W : World) (calls : Caller) (type : VarId → ValueType) (vars : VarId → Val)
    (s : Store) : Instr → Except Stop (Val × Store)
  | set dst value =>
    match value.eval W (type dst) vars with
    | some x => .ok (x, s)
    | none => .error (.trapped s.trace)
  | call _ callee args convention _ =>
    match calls s.trace callee convention (args.map vars) with
    | .ok (trace, x) => .ok (x, { s with trace := trace })
    | .error stop => .error stop
  | load _ slot => .ok (s.slots slot, s)
  | store slot value => .ok (.nothing, s.set slot (vars value))
  | loadGlobal _ name => .ok (W.global name, s)
  | loadElement _ slot index => .ok ((s.slots slot).element (vars index), s)
  | storeElement slot index value =>
    .ok (.nothing, s.set slot ((s.slots slot).setElement (vars index) (vars value)))
  | boundsCheck index length =>
    if (vars index).isBelow length then .ok (.nothing, s) else .error (.trapped s.trace)
  | makeArray _ elements => .ok (.array (elements.map vars), s)
  | makeTuple _ elements => .ok (.tuple (elements.map vars), s)
  | extract _ tuple index => .ok ((vars tuple).part index, s)
  | alloc _ size =>
    let s := s.log (.alloc (vars size))
    .ok (W.pointer s.trace, s)
  | free pointer => .ok (.nothing, s.log (.free (vars pointer)))
  | release pointer => .ok (.nothing, s.log (.release (vars pointer)))
  | loadLanes dst slot start =>
    .ok (.vector (lanesFrom (s.slots slot) start (laneCount (type dst))), s)
  | storeLanes slot start value =>
    .ok (.nothing, s.set slot (setFrom (s.slots slot) start (vars value).lanes))
  | binaryLanes dst op lhs rhs =>
    if op.mayTrap && (vars rhs).lanes.any Val.isZero then .error (.trapped s.trace)
    else
      .ok (.vector ((vars lhs).lanes.zipWith (W.apply op (laneType (type dst))) (vars rhs).lanes), s)

/-- The state of a run. -/
structure State where
  vars : VarId → Val
  store : Store

/-- The variables after one of them may have been set. -/
def setVar (vars : VarId → Val) (dst : Option VarId) (x : Val) : VarId → Val := fun v =>
  if dst = some v then x else vars v

/-- Runs an instruction. -/
def Instr.run (W : World) (calls : Caller) (type : VarId → ValueType) (s : State) (i : Instr) :
    Except Stop State := do
  let (x, after) ← i.act W calls type s.vars s.store
  return ⟨setVar s.vars i.def? x, after⟩

/-- Runs instructions one after the other. -/
def runAll (W : World) (calls : Caller) (type : VarId → ValueType) (instrs : List Instr)
    (s : State) : Except Stop State :=
  instrs.foldlM (Instr.run W calls type) s

/-! ## Functions -/

/-- A block that is about to run, and the state. -/
abbrev Point := BlockId × State

/-- The variables after parameters have received what other variables held before. -/
def passArgs (params args : List VarId) (vars : VarId → Val) : VarId → Val := fun v =>
  match (params.zip args).lookup v with
  | some arg => vars arg
  | none => vars v

/-- Leaves a block. -/
def Terminator.run (f : Function) (s : State) : Terminator → Except Stop Point
  | ret value => .error (.returned s.store.trace s.store.slots (value.map s.vars))
  | jump target args => .ok (target, ⟨passArgs (f.block target).params args s.vars, s.store⟩)
  | branch test thenBlock elseBlock =>
    .ok (if (s.vars test).isTrue then thenBlock else elseBlock, s)
  | unreachable => .error (.trapped s.store.trace)

namespace Function

/-- Runs a block. -/
def step (f : Function) (W : World) (calls : Caller) (p : Point) : Except Stop Point := do
  let s ← runAll W calls f.varType (f.block p.1).instrs p.2
  (f.block p.1).terminator.run f s

/-- The start of a run, with arguments, and with what slots and the other variables hold. -/
def startPoint (f : Function) (args : List Val) (vars : VarId → Val) (store : Store) : Point :=
  (f.entry, ⟨fun v => ((f.params.zip args).lookup v).getD (vars v), store⟩)

end Function

theorem Block.length_instrs (b : Block) :
  b.instrs.length = b.body.length
  := List.length_map _

/-! ## What instructions depend on -/

@[simp]
theorem setVar_none (vars : VarId → Val) (x : Val) :
  setVar vars none x = vars
  := by
  funext v
  simp [setVar]

theorem setVar_of_ne {vars : VarId → Val} {dst : Option VarId} {x : Val} {v : VarId}
    (h : dst ≠ some v) :
  setVar vars dst x v = vars v
  := if_neg h

section

variable {W : World} {calls : Caller} {type : VarId → ValueType} {vars vars' : VarId → Val}
variable {i : Instr}

theorem Value.eval_congr {type : ValueType} {value : Value}
    (h : ∀ v ∈ value.uses, vars v = vars' v) :
  value.eval W type vars = value.eval W type vars'
  := by
  cases value with
  | const c => rfl
  | copy v | unary op v | cast v =>
    have hv := h v (by simp [Value.uses])
    simp only [Value.eval, hv]
  | binary op lhs rhs =>
    have hl := h lhs (by simp [Value.uses])
    have hr := h rhs (by simp [Value.uses])
    simp only [Value.eval, hl, hr]

/-- What an instruction does depends on the variables that it reads. -/
theorem Instr.act_congr {s : Store} (h : ∀ v ∈ i.uses, vars v = vars' v) :
  i.act W calls type vars s = i.act W calls type vars' s
  := by
  have hargs : ∀ args : List VarId, (∀ v ∈ args, vars v = vars' v) → args.map vars = args.map vars' :=
    fun args hargs => List.map_congr_left hargs
  cases i with
  | set dst value => simp only [Instr.act, Value.eval_congr h]
  | call dst callee args convention isTail => simp only [Instr.act, hargs args h]
  | makeArray dst elements | makeTuple dst elements => simp only [Instr.act, hargs elements h]
  | load | loadGlobal | loadLanes => rfl
  | store slot value | storeLanes slot start value =>
    simp only [Instr.act, h value (by simp [Instr.uses])]
  | loadElement dst slot index | boundsCheck index length =>
    simp only [Instr.act, h index (by simp [Instr.uses])]
  | storeElement slot index value =>
    simp only [Instr.act, h index (by simp [Instr.uses]), h value (by simp [Instr.uses])]
  | extract dst tuple index => simp only [Instr.act, h tuple (by simp [Instr.uses])]
  | alloc dst size => simp only [Instr.act, h size (by simp [Instr.uses])]
  | free pointer | release pointer => simp only [Instr.act, h pointer (by simp [Instr.uses])]
  | binaryLanes dst op lhs rhs =>
    simp only [Instr.act, h lhs (by simp [Instr.uses]), h rhs (by simp [Instr.uses])]

@[simp]
theorem Instr.def?_mapUses (rename : VarId → VarId) (i : Instr) :
  (i.mapUses rename).def? = i.def?
  := by
  cases i <;> rfl

@[simp]
theorem Instr.uses_mapUses (rename : VarId → VarId) (i : Instr) :
  (i.mapUses rename).uses = i.uses.map rename
  := by
  cases i with
  | set dst value => cases value <;> rfl
  | call | load | store | loadGlobal | loadElement | storeElement | boundsCheck | makeArray
  | makeTuple | extract | alloc | free | release | loadLanes | storeLanes | binaryLanes => rfl

/-- Reading other variables is reading through the renaming. -/
theorem Instr.act_mapUses {s : Store} (rename : VarId → VarId) (i : Instr) :
  (i.mapUses rename).act W calls type vars s = i.act W calls type (vars ∘ rename) s
  := by
  cases i with
  | set dst value => cases value <;> rfl
  | call | makeArray | makeTuple => simp only [Instr.mapUses, Instr.act, List.map_map]
  | load | store | loadGlobal | loadElement | storeElement | boundsCheck | extract | alloc | free
  | release | loadLanes | storeLanes | binaryLanes => rfl

/-- A slot that an instruction does not write stays as it is. -/
theorem Instr.slots_of_act {s s' : Store} {x : Val} (h : i.act W calls type vars s = .ok (x, s')) {slot : SlotId}
    (hslot : i.writtenSlot? ≠ some slot) :
  s'.slots slot = s.slots slot
  := by
  have hset : ∀ (other : SlotId) (y : Val), other ≠ slot → (s.set other y).slots slot = s.slots slot :=
    fun other y hne => Function.update_of_ne (Ne.symm hne) _ _
  cases i with
  | set dst value | call dst callee args convention isTail | boundsCheck index length =>
    simp only [Instr.act] at h
    split at h
    · cases h
      rfl
    · cases h
  | binaryLanes dst op lhs rhs =>
    simp only [Instr.act] at h
    split at h
    · cases h
    · cases h
      rfl
  | load | loadGlobal | loadElement | makeArray | makeTuple | extract | alloc | free | release
  | loadLanes =>
    cases h
    rfl
  | store other value | storeElement other index value | storeLanes other start value =>
    cases h
    exact hset other _ (by simpa [Instr.writtenSlot?] using hslot)

/-- An instruction without effects only computes something. -/
theorem Instr.act_of_isPure (hpure : i.isPure = true) (W : World) (calls : Caller) (type : VarId → ValueType)
    (vars : VarId → Val) (store : Store) :
  ∃ x, i.act W calls type vars store = .ok (x, store)
  := by
  cases i with
  | set dst value =>
    have heval : ∃ x, value.eval W (type dst) vars = some x := by
      cases value with
      | binary op lhs rhs =>
        have htrap : op.mayTrap = false := by simpa [Instr.isPure, Value.isPure] using hpure
        simp [Value.eval, htrap]
      | const | copy | unary | cast => exact ⟨_, rfl⟩
    obtain ⟨x, hx⟩ := heval
    exact ⟨x, by simp only [Instr.act, hx]⟩
  | binaryLanes dst op lhs rhs =>
    have htrap : op.mayTrap = false := by simpa [Instr.isPure] using hpure
    simp [Instr.act, htrap]
  | load | loadGlobal | loadElement | loadLanes | makeArray | makeTuple | extract => exact ⟨_, rfl⟩
  | call | store | storeElement | boundsCheck | alloc | free | release | storeLanes => cases hpure

theorem Instr.run_eq_ok {s s' : State} :
  i.run W calls type s = .ok s'
    ↔ ∃ x after, i.act W calls type s.vars s.store = .ok (x, after)
      ∧ s' = ⟨setVar s.vars i.def? x, after⟩
  := by
  unfold Instr.run
  cases i.act W calls type s.vars s.store with
  | error stop => simp [bind, Except.bind]
  | ok result =>
    obtain ⟨x, after⟩ := result
    simp only [bind, Except.bind, pure, Except.pure, Except.ok.injEq, Prod.mk.injEq]
    constructor
    · rintro rfl
      exact ⟨x, after, ⟨rfl, rfl⟩, rfl⟩
    · rintro ⟨_, _, ⟨rfl, rfl⟩, rfl⟩
      rfl

theorem runAll_append (first second : List Instr) (s : State) :
  runAll W calls type (first ++ second) s
    = runAll W calls type first s >>= runAll W calls type second
  := List.foldlM_append

theorem runAll_cons (i : Instr) (rest : List Instr) (s : State) :
  runAll W calls type (i :: rest) s = i.run W calls type s >>= runAll W calls type rest
  := List.foldlM_cons

@[simp]
theorem runAll_nil (s : State) :
  runAll W calls type [] s = .ok s
  := rfl

@[simp]
theorem runAll_singleton (i : Instr) (s : State) :
  runAll W calls type [i] s = i.run W calls type s
  := by
  rw [runAll_cons]
  cases i.run W calls type s <;> rfl

end

end Flow

end FormCompiler
