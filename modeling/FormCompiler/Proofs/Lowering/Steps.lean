import FormCompiler.Proofs.Flow.Replace
import FormCompiler.Proofs.Lowering.State

/-!
# The steps of lowering

However a form is lowered, the function changes in small steps: an instruction is added to the current
block, the block is closed, there is a new block, control goes on in a block that is still blank, or a
loop is recorded. A `Spot` is a state of lowering together with what has led to it: the blocks that
control has passed before it comes to a block, and the *ways* that are open, which are the blocks that
control may still be sent to. `Step` says what each step may do.

Two things are read off the steps. Slots are stored before they are read on all ways through the
function (`Spot.Sound`). And a block that is neither current nor to be entered any more *rests*: nothing
changes its code, and control gets to it only where it did so before (`Spot.Rests`, `Spot.Grows`).
-/

namespace FormCompiler

open FormCompiler.Flow

/-! ## Slots and blocks -/

theorem getElem?_mono {α : Type} {xs ys : List α} (h : xs <+: ys) {k : Nat} {x : α}
    (hx : xs[k]? = some x) :
  ys[k]? = some x
  := by
  obtain ⟨more, rfl⟩ := h
  rw [List.getElem?_append_left (List.getElem?_eq_some_iff.mp hx).1, hx]

/-- An instruction writes a slot as a whole, or several of its elements. -/
def Flow.Instr.Overwrites (i : Instr) (slot : SlotId) : Prop := i.writtenSlot? = some slot ∧ i.access? = none

theorem Flow.Instr.not_overwrites_of_def? {i : Instr} {v : VarId} (h : i.def? = some v) (slot : SlotId) :
  ¬i.Overwrites slot
  := by
  cases i <;> simp_all [Instr.Overwrites, Instr.def?, Instr.writtenSlot?]

namespace Flow.Function

variable {f g : Function}
variable {slot : SlotId}

/-- A slot is stored to, as a whole, in one of some blocks. -/
def StoresIn (f : Function) (blocks : Set BlockId) (slot : SlotId) : Prop :=
  ∃ d ∈ blocks, ∃ v, .store slot v ∈ (f.block d).instrs

theorem StoresIn.mono {blocks blocks' : Set BlockId} (h : f.StoresIn blocks slot) (hblocks : blocks ⊆ blocks')
    (hinstrs : ∀ id, (f.block id).instrs <+: (g.block id).instrs) :
  g.StoresIn blocks' slot
  := by
  obtain ⟨d, hd, v, hv⟩ := h
  exact ⟨d, hblocks hd, v, (hinstrs d).subset hv⟩

/-- A slot holds the values of a local. -/
def IsNamed (f : Function) (slot : SlotId) (name : String) : Prop :=
  ∃ x, f.slots[slot]? = some x ∧ x.name = some name

theorem IsNamed.mono {name : String} (h : f.IsNamed slot name) (hslots : f.slots <+: g.slots) :
  g.IsNamed slot name
  := by
  obtain ⟨x, hx, hname⟩ := h
  exact ⟨x, getElem?_mono hslots hx, hname⟩

theorem IsNamed.inj {name name' : String} (h : f.IsNamed slot name) (h' : f.IsNamed slot name') :
  name = name'
  := by
  obtain ⟨x, hx, hname⟩ := h
  obtain ⟨x', hx', hname'⟩ := h'
  obtain rfl := Option.some.inj (hx.symm.trans hx')
  exact Option.some.inj (hname.symm.trans hname')

/-- A block is as it was made. -/
def IsBlank (f : Function) (id : BlockId) : Prop :=
  (f.block id).instrs = [] ∧ (f.block id).terminator = .unreachable

theorem block_modifyBlock_ite (id : BlockId) (change : Block → Block) (d : BlockId) :
  (f.modifyBlock id change).block d
    = if d = id ∧ id < f.blocks.length then change (f.block d) else f.block d
  := by
  by_cases hid : id < f.blocks.length
  · simp only [block_modifyBlock hid, hid, and_true]
  · rw [if_neg fun h => hid h.2]
    simp only [modifyBlock, block, List.getD_eq_getElem?_getD, List.getElem?_modify]
    split
    · next heq =>
      subst heq
      simp [hid]
    · simp

end Flow.Function

/-! ## Spots -/

/-- A state of lowering, and how control gets there and on from there. -/
structure Spot where
  state : LowerState
  /-- The blocks that control has passed before it comes to a block. -/
  passed : Passed
  /-- The blocks that control may be sent to. -/
  ways : Set BlockId

namespace Spot

/-- The function as it is so far. -/
abbrev function (p : Spot) : Function := p.state.function

/-- The blocks that control has passed when it is in the current block. -/
def here (p : Spot) : Set BlockId := p.state.here p.passed

/-- An instruction more in the current block. -/
def emit (p : Spot) (i : Instr) (span : Option Span) : Spot :=
  { p with state := { p.state with
      function := p.function.modifyBlock p.state.current fun b => { b with body := b.body ++ [⟨i, span⟩] } } }

/-- The current block closed. -/
def terminate (p : Spot) (t : Terminator) : Spot :=
  { p with state := { p.state with
      function := p.function.modifyBlock p.state.current fun b => { b with terminator := t }
      isOpen := false } }

/-- A new block, which control can be sent to from here. -/
def addBlock (p : Spot) : Spot :=
  ⟨{ p.state with function := { p.function with blocks := p.function.blocks ++ [.empty] } },
    Function.update p.passed p.function.blocks.length p.here, insert p.function.blocks.length p.ways⟩

/-- Control goes on in a block, and only some ways stay open. -/
def enter (p : Spot) (id : BlockId) (ways : Set BlockId) : Spot :=
  ⟨{ p.state with current := id, isOpen := true }, p.passed, ways⟩

/-- A loop recorded. -/
def record (p : Spot) (l : LoopInfo) : Spot :=
  { p with state := { p.state with function := { p.function with loops := p.function.loops ++ [l] } } }

variable {p q r : Spot} {id : BlockId}

theorem instrs_emit (i : Instr) (span : Option Span) :
  ((p.emit i span).function.block id).instrs
    = if id = p.state.current ∧ p.state.current < p.function.blocks.length then
        (p.function.block id).instrs ++ [i]
      else (p.function.block id).instrs
  := by
  change ((p.function.modifyBlock p.state.current _).block id).instrs = _
  rw [Function.block_modifyBlock_ite]
  split <;> simp [Block.instrs]

theorem terminator_emit (i : Instr) (span : Option Span) :
  ((p.emit i span).function.block id).terminator = (p.function.block id).terminator
  := by
  change ((p.function.modifyBlock p.state.current _).block id).terminator = _
  rw [Function.block_modifyBlock_ite]
  split <;> rfl

theorem length_emit (i : Instr) (span : Option Span) :
  (p.emit i span).function.blocks.length = p.function.blocks.length
  := List.length_modify _ _ _

theorem instrs_terminate (t : Terminator) :
  ((p.terminate t).function.block id).instrs = (p.function.block id).instrs
  := by
  change ((p.function.modifyBlock p.state.current _).block id).instrs = _
  rw [Function.block_modifyBlock_ite]
  split <;> rfl

theorem terminator_terminate (t : Terminator) :
  ((p.terminate t).function.block id).terminator
    = if id = p.state.current ∧ p.state.current < p.function.blocks.length then t
      else (p.function.block id).terminator
  := by
  change ((p.function.modifyBlock p.state.current _).block id).terminator = _
  rw [Function.block_modifyBlock_ite]
  split <;> rfl

theorem length_terminate (t : Terminator) :
  (p.terminate t).function.blocks.length = p.function.blocks.length
  := List.length_modify _ _ _

theorem block_addBlock :
  p.addBlock.function.block id = p.function.block id
  := by
  change (p.function.blocks ++ [Block.empty]).getD id .empty = p.function.blocks.getD id .empty
  by_cases hid : id < p.function.blocks.length
  · rw [List.getD_append _ _ _ _ hid]
  · rw [List.getD_append_right _ _ _ _ (Nat.le_of_not_lt hid),
      List.getD_eq_default _ _ (Nat.le_of_not_lt hid)]
    cases id - p.function.blocks.length <;> rfl

theorem length_addBlock :
  p.addBlock.function.blocks.length = p.function.blocks.length + 1
  := List.length_append

theorem here_addBlock (hcurrent : p.state.current < p.function.blocks.length) :
  p.addBlock.here = p.here
  := congrArg (insert p.state.current) (Function.update_of_ne hcurrent.ne _ _)

/-! ## Loops that count -/

end Spot

/-- An operation on a variable and an integer literal. -/
def Expr.IsOperation (e : Expr) (op : BinaryOp) (name : String) (n : Int) : Prop :=
  ∃ lhs rhs, e.shape = .binary op lhs rhs ∧ lhs.isName name = true ∧ rhs.intLiteral? = some n

/-- A form that changes a variable by an amount: it adds an integer literal to it or subtracts one. -/
def Expr.IsStep (e : Expr) (name : String) (change : Int) : Prop :=
  ∃ value op n, e.shape = .assign name value ∧ value.IsOperation op name n
    ∧ (op = .add ∧ change = n ∨ op = .sub ∧ change = -n)

/-- A loop of the program text that counts with a variable: all numbers in it are literals. -/
def Expr.IsCounted (e : Expr) (name : String) (i : Induction) : Prop :=
  ∃ type start init test step body,
    e.shape = .forLoop init test step body ∧ init.shape = .declare true name type start
      ∧ start.intLiteral? = some i.init ∧ test.IsOperation i.cmp name i.bound ∧ step.IsStep name i.step
      ∧ i.cmp ∈ [.lt, .le, .gt, .ge, .ne]

/-- The code of a loop that counts; its preheader is entered from one block. -/
structure Flow.LoopInfo.Code (f : Function) (l : LoopInfo) (i : Induction) (before : BlockId) : Prop where
  outside : l.preheader ∉ l.blocks
  entry : f.entry ∉ l.preheader :: l.blocks
  header : l.header ∈ l.blocks
  latch : l.latch ∈ l.blocks
  exit : l.exit ∉ l.blocks
  /-- Control gets into the loop by one way only. -/
  edge : ∀ a b, a ∉ l.blocks → b ∈ l.blocks → b ∈ f.successors a → a = l.preheader ∧ b = l.header
  only : ∀ a, l.preheader ∈ f.successors a → a = before
  start : ∃ earlier v, (f.block before).instrs = earlier ++ [.set v (.const (.int i.init)), .store i.slot v]
  jump : (f.block l.preheader).instrs = [] ∧ (f.block l.preheader).terminator = .jump l.header []
  test : ∃ n b t body, n ≠ b ∧ body ∈ l.blocks ∧ (f.block l.header).instrs
      = [.load n i.slot, .set b (.const (.int i.bound)), .set t (.binary i.cmp n b)]
    ∧ (f.block l.header).terminator = .branch t body l.exit
  step : ∃ n a v op amount, n ≠ a ∧ (op = .add ∧ i.step = amount ∨ op = .sub ∧ i.step = -amount)
    ∧ (f.block l.latch).instrs
      = [.load n i.slot, .set a (.const (.int amount)), .set v (.binary op n a), .store i.slot v]
    ∧ (f.block l.latch).terminator = .jump l.header []
  stores : ∀ id ∈ l.blocks, id ≠ l.latch → ∀ instr ∈ (f.block id).instrs, ¬instr.Overwrites i.slot
  slot : ∃ x, f.slots[i.slot]? = some x ∧ x.type.isInt = true

namespace Spot

variable {p q r : Spot} {id : BlockId} {V V' : Expr → Prop} {base base' : Function}

/--
Nothing changes the code of a block any more: it exists, it is not the current one, and if control may
still be sent to it, then it is not blank or one of those before the bound, in which control does not go
on.
-/
structure Rests (p : Spot) (bound : Nat) (id : BlockId) : Prop where
  lt : id < p.function.blocks.length
  idle : p.state.isOpen = true → id ≠ p.state.current
  used : id ∈ p.ways → bound ≤ id → ¬p.function.IsBlank id

/-- What is known of a loop that counts once it has been recorded. -/
structure Counts (V : Expr → Prop) (p : Spot) (l : LoopInfo) (i : Induction) : Prop where
  source : ∃ e name, V e ∧ e.IsCounted name i ∧ p.function.IsNamed i.slot name
  code : ∃ before, l.Code p.function i before ∧ ∀ id ∈ before :: l.preheader :: l.blocks, p.Rests 0 id
  away : ∀ id ∈ l.preheader :: l.blocks, id ∉ p.ways

/-! ## Steps -/

/-- Nothing happens to the code; the scopes, the variables and the parameters of blocks may change. -/
structure Same (p q : Spot) : Prop where
  length : q.function.blocks.length = p.function.blocks.length
  instrs : ∀ id, (q.function.block id).instrs = (p.function.block id).instrs
  terminator : ∀ id, (q.function.block id).terminator = (p.function.block id).terminator
  entry : q.function.entry = p.function.entry
  loops : q.function.loops = p.function.loops
  slots : p.function.slots <+: q.function.slots
  current : q.state.current = p.state.current
  isOpen : q.state.isOpen = p.state.isOpen
  passed : q.passed = p.passed
  ways : q.ways ⊆ p.ways

/--
One step of lowering a form. Slots that are older than the form are written only by assignments that
stand in it, and control does not go on in blocks that are older.
-/
inductive Step (V : Expr → Prop) (base : Function) (p : Spot) : Spot → Prop
  | same {q : Spot} (h : p.Same q) : Step V base p q
  | emit {i : Instr} (span : Option Span) (hopen : p.state.isOpen = true)
    (hread : ∀ slot, i.readSlot? = some slot → p.function.StoresIn p.here slot)
    (hwrite : ∀ slot, i.Overwrites slot → base.slots.length ≤ slot
      ∨ ∃ e name value, V e ∧ e.shape = .assign name value ∧ p.function.IsNamed slot name) :
    Step V base p (p.emit i span)
  | terminate {t : Terminator} (hopen : p.state.isOpen = true) (ht : ∀ next ∈ t.successors, next ∈ p.ways) :
    Step V base p (p.terminate t)
  | addBlock (hopen : p.state.isOpen = true) : Step V base p p.addBlock
  | enter {id : BlockId} {ways : Set BlockId} (hclosed : p.state.isOpen = false) (hid : id ∈ p.ways)
    (hbase : base.blocks.length ≤ id) (hblank : p.function.IsBlank id)
    (hways : ∀ way ∈ ways, way ∈ p.ways ∧ p.passed way ⊆ insert id (p.passed id)) :
    Step V base p (p.enter id ways)
  | record {l : LoopInfo} (hl : ∀ i, l.induction = some i → p.Counts V l i) : Step V base p (p.record l)

/-- The steps of lowering a form. -/
abbrev Steps (V : Expr → Prop) (base : Function) : Spot → Spot → Prop :=
  Relation.ReflTransGen (Step V base)

theorem Counts.mono {l : LoopInfo} {i : Induction} (h : p.Counts V l i) (hV : ∀ e, V e → V' e) :
  p.Counts V' l i
  := by
  obtain ⟨e, name, he, hcounted⟩ := h.source
  exact ⟨⟨e, name, hV e he, hcounted⟩, h.code, h.away⟩

theorem Step.mono (h : Step V base p q) (hV : ∀ e, V e → V' e)
    (hblocks : base'.blocks.length ≤ base.blocks.length)
    (hslots : base'.slots.length ≤ base.slots.length) :
  Step V' base' p q
  := by
  cases h with
  | same h => exact .same h
  | emit span hopen hread hwrite =>
    refine .emit span hopen hread fun slot hi => (hwrite slot hi).imp hslots.trans ?_
    rintro ⟨e, name, value, he, hassign⟩
    exact ⟨e, name, value, hV e he, hassign⟩
  | terminate hopen ht => exact .terminate hopen ht
  | addBlock hopen => exact .addBlock hopen
  | enter hclosed hid hbase hblank hways => exact .enter hclosed hid (hblocks.trans hbase) hblank hways
  | record hl => exact .record fun i hi => (hl i hi).mono hV

theorem Steps.mono (h : Steps V base p q) (hV : ∀ e, V e → V' e)
    (hblocks : base'.blocks.length ≤ base.blocks.length)
    (hslots : base'.slots.length ≤ base.slots.length) :
  Steps V' base' p q
  := by
  induction h with
  | refl => exact .refl
  | tail _ hstep ih => exact ih.tail (hstep.mono hV hblocks hslots)

/-! ## What grows -/

/-- What steps only add to, and where control can get to in the end. -/
structure Grows (p q : Spot) : Prop where
  length : p.function.blocks.length ≤ q.function.blocks.length
  slots : p.function.slots <+: q.function.slots
  entry : q.function.entry = p.function.entry
  instrs : ∀ id, (p.function.block id).instrs <+: (q.function.block id).instrs
  passed : ∀ id < p.function.blocks.length, q.passed id = p.passed id
  ways : ∀ way ∈ q.ways, way ∈ p.ways ∨ p.function.blocks.length ≤ way
  targets : ∀ id, ∀ next ∈ q.function.successors id,
    next ∈ p.function.successors id ∨ next ∈ p.ways ∨ p.function.blocks.length ≤ next

theorem Grows.refl (p : Spot) :
  p.Grows p
  := ⟨le_rfl, List.prefix_refl _, rfl, fun _ => List.prefix_refl _, fun _ _ => rfl, fun _ => .inl,
    fun _ _ => .inl⟩

theorem Grows.trans (h : p.Grows q) (h' : q.Grows r) :
  p.Grows r
  := by
  have hways : ∀ way, way ∈ q.ways ∨ q.function.blocks.length ≤ way →
      way ∈ p.ways ∨ p.function.blocks.length ≤ way := by
    rintro way (hway | hway)
    · exact h.ways way hway
    · exact .inr (h.length.trans hway)
  refine ⟨h.length.trans h'.length, h.slots.trans h'.slots, h'.entry.trans h.entry,
    fun id => (h.instrs id).trans (h'.instrs id), fun id hid => ?_, fun way hway => ?_,
    fun id next hnext => ?_⟩
  · exact (h'.passed id (hid.trans_le h.length)).trans (h.passed id hid)
  · exact hways way (h'.ways way hway)
  · rcases h'.targets id next hnext with hnext | hnext
    · exact h.targets id next hnext
    · exact .inr (hways next hnext)

/-- Control gets to a block only where it did so before, if it could not be sent there. -/
theorem Grows.mem_successors (h : p.Grows q) {next : BlockId} (hlt : next < p.function.blocks.length)
    (haway : next ∉ p.ways) (hnext : next ∈ q.function.successors id) :
  next ∈ p.function.successors id
  := by
  refine (h.targets id next hnext).resolve_right ?_
  rintro (hway | hle)
  · exact haway hway
  · exact absurd hlt (Nat.not_lt_of_le hle)

theorem Step.grows (h : Step V base p q) :
  p.Grows q
  := by
  cases h with
  | same h =>
    refine ⟨h.length.ge, h.slots, h.entry, fun id => (h.instrs id) ▸ List.prefix_refl _,
      fun _ _ => by rw [h.passed], fun way hway => .inl (h.ways hway), fun id next hnext => .inl ?_⟩
    rwa [Function.successors, h.terminator] at hnext
  | emit =>
    refine ⟨(length_emit ..).ge, List.prefix_refl _, rfl, fun id => ?_, fun _ _ => rfl, fun _ => .inl,
      fun id next hnext => .inl ?_⟩
    · rw [instrs_emit]
      split
      · exact List.prefix_append _ _
      · exact List.prefix_refl _
    · rwa [Function.successors, terminator_emit] at hnext
  | terminate hopen ht =>
    refine ⟨(length_terminate _).ge, List.prefix_refl _, rfl, fun id => ?_, fun _ _ => rfl, fun _ => .inl,
      fun id next hnext => ?_⟩
    · rw [instrs_terminate]
    · rw [Function.successors, terminator_terminate] at hnext
      split at hnext
      · exact .inr (.inl (ht next hnext))
      · exact .inl hnext
  | addBlock =>
    refine ⟨length_addBlock ▸ Nat.le_succ _, List.prefix_refl _, rfl, fun id => ?_, fun id hid => ?_,
      fun way hway => ?_, fun id next hnext => .inl ?_⟩
    · rw [block_addBlock]
    · exact Function.update_of_ne hid.ne _ _
    · exact hway.elim (fun heq => .inr heq.ge) .inl
    · rwa [Function.successors, block_addBlock] at hnext
  | enter hclosed hid hbase hblank hways =>
    exact ⟨le_rfl, List.prefix_refl _, rfl, fun _ => List.prefix_refl _, fun _ _ => rfl,
      fun way hway => .inl (hways way hway).1, fun _ _ => .inl⟩
  | record =>
    exact ⟨le_rfl, List.prefix_refl _, rfl, fun _ => List.prefix_refl _, fun _ _ => rfl, fun _ => .inl,
      fun _ _ => .inl⟩

theorem Steps.grows (h : Steps V base p q) :
  p.Grows q
  := by
  induction h with
  | refl => exact .refl p
  | tail _ hstep ih => exact ih.trans hstep.grows

/-! ## What rests -/

theorem Step.rests (h : Step V base p q) {bound : Nat} (hbound : bound ≤ base.blocks.length)
    (hid : p.Rests bound id) :
  q.Rests bound id ∧ (q.function.block id).instrs = (p.function.block id).instrs
    ∧ (q.function.block id).terminator = (p.function.block id).terminator
  := by
  obtain ⟨hlt, hidle, hused⟩ := hid
  cases h with
  | same h =>
    refine ⟨⟨h.length ▸ hlt, ?_, fun hway hle hblank => ?_⟩, h.instrs id, h.terminator id⟩
    · rwa [h.isOpen, h.current]
    · rw [Function.IsBlank, h.instrs, h.terminator] at hblank
      exact hused (h.ways hway) hle hblank
  | emit span hopen =>
    have hinstrs := @instrs_emit p id
    simp only [hidle hopen, false_and, if_false] at hinstrs
    refine ⟨⟨?_, hidle, fun hway hle hblank => ?_⟩, hinstrs _ _, terminator_emit _ _⟩
    · rwa [length_emit]
    · rw [Function.IsBlank, hinstrs, terminator_emit] at hblank
      exact hused hway hle hblank
  | terminate hopen =>
    have hterminator := @terminator_terminate p id
    simp only [hidle hopen, false_and, if_false] at hterminator
    refine ⟨⟨?_, fun h => absurd h Bool.false_ne_true, fun hway hle hblank => ?_⟩, instrs_terminate _,
      hterminator _⟩
    · rwa [length_terminate]
    · rw [Function.IsBlank, hterminator, instrs_terminate] at hblank
      exact hused hway hle hblank
  | addBlock =>
    refine ⟨⟨?_, hidle, fun hway hle hblank => ?_⟩, by rw [block_addBlock], by rw [block_addBlock]⟩
    · rw [length_addBlock]
      exact hlt.trans (Nat.lt_succ_self _)
    · rw [Function.IsBlank, block_addBlock] at hblank
      exact hused (hway.resolve_left hlt.ne) hle hblank
  | enter hclosed hentered hbase hblank hways =>
    refine ⟨⟨hlt, ?_, fun hway => hused (hways id hway).1⟩, rfl, rfl⟩
    rintro - rfl
    exact hused hentered (hbound.trans hbase) hblank
  | record => exact ⟨⟨hlt, hidle, hused⟩, rfl, rfl⟩

/-- Nothing happens to a block that rests. -/
theorem Steps.rests (h : Steps V base p q) {bound : Nat} (hbound : bound ≤ base.blocks.length)
    (hid : p.Rests bound id) :
  q.Rests bound id ∧ (q.function.block id).instrs = (p.function.block id).instrs
    ∧ (q.function.block id).terminator = (p.function.block id).terminator
  := by
  induction h with
  | refl => exact ⟨hid, rfl, rfl⟩
  | tail _ hstep ih =>
    obtain ⟨hrests, hinstrs, hterminator⟩ := ih
    obtain ⟨hrests', hinstrs', hterminator'⟩ := hstep.rests hbound hrests
    exact ⟨hrests', hinstrs'.trans hinstrs, hterminator'.trans hterminator⟩

/-- A slot that is older than a form, and that no assignment in it is for, is not overwritten. -/
theorem Steps.overwrites_mem (h : Steps V base p q) {slot : SlotId} {name : String}
    (hslot : slot < base.slots.length) (hname : p.function.IsNamed slot name)
    (hassign : ∀ e value, V e → e.shape ≠ .assign name value) {i : Instr} (hi : i.Overwrites slot)
    (hmem : i ∈ (q.function.block id).instrs) :
  i ∈ (p.function.block id).instrs
  := by
  induction h with
  | refl => exact hmem
  | @tail q r hsteps hstep ih =>
    refine ih ?_
    have hnamed := hname.mono (Steps.grows hsteps).slots
    cases hstep with
    | same h => rwa [h.instrs] at hmem
    | emit span hopen hread hwrite =>
      rw [instrs_emit] at hmem
      split at hmem
      · refine (List.mem_append.mp hmem).resolve_right fun hnew => ?_
        obtain rfl := List.mem_singleton.mp hnew
        rcases hwrite slot hi with hle | ⟨e, name', value, he, hshape, hnamed'⟩
        · exact absurd hslot (Nat.not_lt_of_le hle)
        · exact hassign e value he (hnamed.inj hnamed' ▸ hshape)
      · exact hmem
    | terminate => rwa [instrs_terminate] at hmem
    | addBlock => rwa [block_addBlock] at hmem
    | enter => exact hmem
    | record => exact hmem

/-! ## Recorded loops -/

/-- What is known of a recorded loop stays true. -/
theorem Step.counts (h : Step V base p q) {l : LoopInfo} {i : Induction} (hl : p.Counts V l i) :
  q.Counts V l i
  := by
  obtain ⟨⟨e, name, he, hcounted, hnamed⟩, ⟨before, hcode, hrests⟩, haway⟩ := hl
  have hgrows := h.grows
  have hkept := fun id hid => h.rests (Nat.zero_le _) (hrests id hid)
  have hblock : ∀ id ∈ l.blocks, id ∈ before :: l.preheader :: l.blocks :=
    fun id hid => List.mem_cons_of_mem _ (List.mem_cons_of_mem _ hid)
  have hpreheader : l.preheader ∈ before :: l.preheader :: l.blocks := by simp
  have hbefore : before ∈ before :: l.preheader :: l.blocks := by simp
  -- control gets into the loop only where it did so before
  have hnext : ∀ a b, b ∈ l.preheader :: l.blocks → b ∈ q.function.successors a →
      b ∈ p.function.successors a :=
    fun a b hb => hgrows.mem_successors (hrests b (List.mem_cons_of_mem _ hb)).lt (haway b hb)
  refine ⟨⟨e, name, he, hcounted, hnamed.mono hgrows.slots⟩, ⟨before, ⟨hcode.outside,
    hgrows.entry ▸ hcode.entry, hcode.header, hcode.latch, hcode.exit,
    fun a b ha hb h => hcode.edge a b ha hb (hnext a b (List.mem_cons_of_mem _ hb) h),
    fun a h => hcode.only a (hnext a _ (List.mem_cons_self ..) h), ?_, ?_, ?_, ?_, fun id hid => ?_, ?_⟩,
    fun id hid => (hkept id hid).1⟩, fun id hid hway => ?_⟩
  · rw [(hkept before hbefore).2.1]
    exact hcode.start
  · rw [(hkept _ hpreheader).2.1, (hkept _ hpreheader).2.2]
    exact hcode.jump
  · rw [(hkept _ (hblock _ hcode.header)).2.1, (hkept _ (hblock _ hcode.header)).2.2]
    exact hcode.test
  · rw [(hkept _ (hblock _ hcode.latch)).2.1, (hkept _ (hblock _ hcode.latch)).2.2]
    exact hcode.step
  · rw [(hkept id (hblock id hid)).2.1]
    exact hcode.stores id hid
  · obtain ⟨x, hx, htype⟩ := hcode.slot
    exact ⟨x, getElem?_mono hgrows.slots hx, htype⟩
  · rcases hgrows.ways id hway with hway | hnew
    · exact haway id hid hway
    · exact absurd (hrests id (List.mem_cons_of_mem _ hid)).lt (Nat.not_lt_of_le hnew)

/-- What holds between two steps. -/
structure Sound (p : Spot) : Prop where
  entry : p.function.entry < p.function.blocks.length
  current : p.state.current < p.function.blocks.length
  first : p.passed p.function.entry = ∅
  targets : ∀ id, ∀ next ∈ p.function.successors id,
    next < p.function.blocks.length ∧ p.passed next ⊆ insert id (p.passed id)
  ways : ∀ way ∈ p.ways, way < p.function.blocks.length
    ∧ (p.state.isOpen = true → p.passed way ⊆ p.here)
  /-- What is read has been stored earlier in the block, or in a block that control has passed. -/
  reads : ∀ id j i slot, (p.function.block id).instrs[j]? = some i → i.readSlot? = some slot →
    (∃ v, .store slot v ∈ (p.function.block id).instrs.take j)
      ∨ p.function.StoresIn (p.passed id) slot

theorem Step.sound (h : Step V base p q) (hp : p.Sound) :
  q.Sound
  := by
  have hgrows := h.grows
  cases h with
  | same h =>
    refine ⟨?_, ?_, ?_, fun id next hnext => ?_, fun way hway => ?_, fun id j i slot hi hslot => ?_⟩
    · rw [h.entry, h.length]
      exact hp.entry
    · rw [h.current, h.length]
      exact hp.current
    · rw [h.passed, h.entry]
      exact hp.first
    · rw [Function.successors, h.terminator] at hnext
      rw [h.length, h.passed]
      exact hp.targets id next hnext
    · rw [h.length, h.isOpen, here, LowerState.here, h.current, h.passed]
      exact hp.ways way (h.ways hway)
    · rw [h.instrs] at hi ⊢
      rw [h.passed]
      exact (hp.reads id j i slot hi hslot).imp_right fun hstores => hstores.mono subset_rfl hgrows.instrs
  | @emit i span hopen hread _ =>
    refine ⟨?_, ?_, hp.first, fun id next hnext => ?_, fun way hway => ?_, fun id j i' slot hi hslot => ?_⟩
    · rw [length_emit]
      exact hp.entry
    · rw [length_emit]
      exact hp.current
    · rw [Function.successors, terminator_emit] at hnext
      rw [length_emit]
      exact hp.targets id next hnext
    · rw [length_emit]
      exact hp.ways way hway
    · have hold : (p.function.block id).instrs[j]? = some i' →
          (∃ v, .store slot v ∈ ((p.emit i span).function.block id).instrs.take j)
            ∨ (p.emit i span).function.StoresIn (p.passed id) slot := by
        intro hi
        refine (hp.reads id j i' slot hi hslot).imp ?_ fun hstores => hstores.mono subset_rfl hgrows.instrs
        rintro ⟨v, hv⟩
        exact ⟨v, ((hgrows.instrs id).take j).subset hv⟩
      rw [instrs_emit] at hi
      split at hi
      · next hcurrent =>
        rcases Nat.lt_or_ge j (p.function.block id).instrs.length with hlt | hge
        · rw [List.getElem?_append_left hlt] at hi
          exact hold hi
        · -- the new instruction
          rw [List.getElem?_append_right hge, List.getElem?_singleton] at hi
          split at hi
          · next heq =>
            obtain rfl := Option.some.inj hi
            obtain ⟨rfl, hlt⟩ := hcurrent
            obtain ⟨d, hd, v, hv⟩ := hread slot hslot
            rcases hd with rfl | hd
            · refine .inl ⟨v, ?_⟩
              rw [instrs_emit, if_pos ⟨rfl, hlt⟩, List.take_append_of_le_length (by omega),
                List.take_of_length_le (by omega)]
              exact hv
            · exact .inr ⟨d, hd, v, (hgrows.instrs d).subset hv⟩
          · cases hi
      · exact hold hi
  | @terminate t hopen ht =>
    refine ⟨?_, ?_, hp.first, fun id next hnext => ?_, fun way hway => ?_, fun id j i slot hi hslot => ?_⟩
    · rw [length_terminate]
      exact hp.entry
    · rw [length_terminate]
      exact hp.current
    · rw [Function.successors, terminator_terminate] at hnext
      rw [length_terminate]
      split at hnext
      · next hcurrent =>
        obtain ⟨hlt, hpassed⟩ := hp.ways next (ht next hnext)
        rw [hcurrent.1]
        exact ⟨hlt, hpassed hopen⟩
      · exact hp.targets id next hnext
    · rw [length_terminate]
      exact ⟨(hp.ways way hway).1, fun h => absurd h Bool.false_ne_true⟩
    · rw [instrs_terminate] at hi ⊢
      exact (hp.reads id j i slot hi hslot).imp_right fun hstores => hstores.mono subset_rfl hgrows.instrs
  | addBlock hopen =>
    have hpassed : ∀ id < p.function.blocks.length, p.addBlock.passed id = p.passed id := hgrows.passed
    have hhere := here_addBlock hp.current
    refine ⟨?_, ?_, ?_, fun id next hnext => ?_, fun way hway => ?_, fun id j i slot hi hslot => ?_⟩
    · rw [length_addBlock]
      exact hp.entry.trans (Nat.lt_succ_self _)
    · rw [length_addBlock]
      exact hp.current.trans (Nat.lt_succ_self _)
    · exact (hpassed _ hp.entry).trans hp.first
    · rw [Function.successors, block_addBlock, ← Function.successors] at hnext
      obtain ⟨hlt, hsub⟩ := hp.targets id next hnext
      have hid : id < p.function.blocks.length := by
        by_contra hge
        rw [Function.successors_eq_nil (Nat.le_of_not_lt hge)] at hnext
        cases hnext
      rw [length_addBlock, hpassed _ hlt, hpassed _ hid]
      exact ⟨hlt.trans (Nat.lt_succ_self _), hsub⟩
    · rw [length_addBlock, hhere]
      rcases hway with rfl | hway
      · refine ⟨Nat.lt_succ_self _, fun _ => ?_⟩
        exact (Function.update_self ..).le
      · obtain ⟨hlt, hsub⟩ := hp.ways way hway
        rw [hpassed _ hlt]
        exact ⟨hlt.trans (Nat.lt_succ_self _), hsub⟩
    · rw [block_addBlock] at hi ⊢
      have hid : id < p.function.blocks.length := by
        by_contra hge
        rw [Function.block, List.getD_eq_default _ _ (Nat.le_of_not_lt hge)] at hi
        cases hi
      rw [hpassed _ hid]
      exact (hp.reads id j i slot hi hslot).imp_right fun hstores => hstores.mono subset_rfl hgrows.instrs
  | enter hclosed hid hbase hblank hways =>
    refine ⟨hp.entry, (hp.ways _ hid).1, hp.first, hp.targets, fun way hway => ?_, hp.reads⟩
    exact ⟨(hp.ways way (hways way hway).1).1, fun _ => (hways way hway).2⟩
  | record => exact ⟨hp.entry, hp.current, hp.first, hp.targets, hp.ways, hp.reads⟩

theorem Steps.sound (h : Steps V base p q) (hp : p.Sound) :
  q.Sound
  := by
  induction h with
  | refl => exact hp
  | tail _ hstep ih => exact hstep.sound ih

end Spot

end FormCompiler
