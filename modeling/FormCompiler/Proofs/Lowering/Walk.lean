import FormCompiler.Proofs.Lowering.Actions
import FormCompiler.Proofs.Lowering.Steps

/-!
# Walking through lowering

Wherever control can be, all that can be read in the scopes around has been stored, and so has what is to
be released at their ends (`Spot.Ready`). An action of lowering *leads* from such a spot to another one by
steps: if control comes out of it, the same is true there. Nothing is said of types here, so this holds of
actions on any expressions.
-/

namespace FormCompiler

open FormCompiler.Flow

/-- What is owed at the end of the innermost scope. -/
def Frames.owed (frames : Frames) : List ExitAction := (frames.head?.map (·.exits)).getD []

namespace Spot

variable {V V' : Expr → Prop} {p q r : Spot}

/-! ## Where control can be -/

/-- All that is to be released has been stored. -/
def Releases (p : Spot) (exits : List ExitAction) : Prop :=
  ∀ slot, .release slot ∈ exits → p.function.StoresIn p.here slot

/-- A local has been stored. -/
def Stores (p : Spot) (entry : String × SlotId) : Prop :=
  p.function.StoresIn p.here entry.2 ∧ p.function.IsNamed entry.2 entry.1

/-- What holds before a form: what the scopes hold has been stored, and jumps out of the loop have ways. -/
structure Ready (p : Spot) : Prop where
  sound : p.Sound
  isOpen : p.state.isOpen = true
  names : ∀ frame ∈ p.state.frames, ∀ entry ∈ frame.names, p.Stores entry
  exits : ∀ frame ∈ p.state.frames, p.Releases frame.exits
  targets : ∀ targets, p.state.loop = some targets → targets.latch ∈ p.ways ∧ targets.exit ∈ p.ways

theorem Releases.mono {exits : List ExitAction} (h : p.Releases exits) (hgrows : p.Grows q)
    (hhere : p.here ⊆ q.here) :
  q.Releases exits
  := fun slot hslot => (h slot hslot).mono hhere hgrows.instrs

theorem Stores.mono {entry : String × SlotId} (h : p.Stores entry) (hgrows : p.Grows q)
    (hhere : p.here ⊆ q.here) :
  q.Stores entry
  := ⟨h.1.mono hhere hgrows.instrs, h.2.mono hgrows.slots⟩

theorem Ready.slot (h : p.Ready) {name : String} {slot : SlotId}
    (hslot : p.state.frames.slot? name = some slot) :
  p.Stores (name, slot)
  := by
  rw [LowerState.slot?_eq_lookup] at hslot
  obtain ⟨frame, hframe, hentry⟩ := List.mem_flatMap.mp (mem_of_lookup_eq_some hslot)
  exact h.names frame hframe _ hentry

/-- What an action does after which the scope is left. -/
structure Moves (V : Expr → Prop) (p q : Spot) : Prop where
  steps : Steps V p.function p q
  ways : q.ways = p.ways
  loop : q.state.loop = p.state.loop
  tail : q.state.frames.tail = p.state.frames.tail
  here : q.state.isOpen = true → p.here ⊆ q.here
  exits : q.state.isOpen = true → q.Releases q.state.frames.owed

/-- What an action does after which other forms may come. -/
structure Leads (V : Expr → Prop) (p q : Spot) : Prop extends Moves V p q where
  names : q.state.isOpen = true → ∀ frame ∈ q.state.frames.head?, ∀ entry ∈ frame.names, q.Stores entry

/-- What an action does that only adds to the current block. -/
structure Straight (V : Expr → Prop) (p q : Spot) : Prop extends Leads V p q where
  isOpen : q.state.isOpen = true
  current : q.state.current = p.state.current
  frames : q.state.frames = p.state.frames

theorem Moves.grows (h : Moves V p q) :
  p.Grows q
  := Steps.grows h.steps

theorem Moves.mono (h : Moves V p q) (hV : ∀ e, V e → V' e) :
  Moves V' p q
  := { h with steps := Steps.mono h.steps hV le_rfl le_rfl }

theorem Leads.mono (h : Leads V p q) (hV : ∀ e, V e → V' e) :
  Leads V' p q
  := ⟨h.toMoves.mono hV, h.names⟩

/-- Steps later on are steps of the whole. -/
theorem Moves.later (h : Moves V q r) (hgrows : p.Grows q) :
  Steps V p.function q r
  := Steps.mono h.steps (fun _ => id) hgrows.length hgrows.slots.length_le

theorem Moves.trans (h : Moves V p q) (hopen : q.state.isOpen = true) (h' : Moves V q r) :
  Moves V p r
  := ⟨h.steps.trans (h'.later h.grows), h'.ways.trans h.ways, h'.loop.trans h.loop, h'.tail.trans h.tail,
    fun hopen' => (h.here hopen).trans (h'.here hopen'), h'.exits⟩

theorem Leads.trans (h : Moves V p q) (hopen : q.state.isOpen = true) (h' : Leads V q r) :
  Leads V p r
  := ⟨h.trans hopen h'.toMoves, h'.names⟩

theorem Straight.trans (h : Straight V p q) (h' : Straight V q r) :
  Straight V p r
  := ⟨.trans h.toMoves h.isOpen h'.toLeads, h'.isOpen, h'.current.trans h.current, h'.frames.trans h.frames⟩

theorem Leads.ready (h : Leads V p q) (hp : p.Ready) (hopen : q.state.isOpen = true) :
  q.Ready
  := by
  have hframes : ∀ frame ∈ q.state.frames, frame ∈ q.state.frames.head? ∨ frame ∈ p.state.frames := by
    intro frame hframe
    have htail := h.tail
    cases hq : q.state.frames with
    | nil => simp [hq] at hframe
    | cons first rest =>
      rw [hq] at hframe htail
      rcases List.mem_cons.mp hframe with rfl | hframe
      · exact .inl rfl
      · exact .inr (List.mem_of_mem_tail (htail ▸ hframe))
  refine ⟨Steps.sound h.steps hp.sound, hopen, fun frame hframe entry hentry => ?_, fun frame hframe => ?_,
    fun targets htargets => ?_⟩
  · rcases hframes frame hframe with hhead | hold
    · exact h.names hopen frame hhead entry hentry
    · exact (hp.names frame hold entry hentry).mono h.grows (h.here hopen)
  · rcases hframes frame hframe with hhead | hold
    · have hexits := h.exits hopen
      rw [Frames.owed, hhead] at hexits
      exact hexits
    · exact (hp.exits frame hold).mono h.grows (h.here hopen)
  · rw [h.loop] at htargets
    rw [h.ways]
    exact hp.targets targets htargets

theorem Straight.ready (h : Straight V p q) (hp : p.Ready) :
  q.Ready
  := h.toLeads.ready hp h.isOpen

theorem Ready.owed (hp : p.Ready) :
  p.Releases p.state.frames.owed
  := by
  rw [Frames.owed]
  cases hhead : p.state.frames.head? with
  | none => simp [Releases]
  | some frame => exact hp.exits frame (List.mem_of_mem_head? hhead)

/-- Steps after which the scopes are as before. -/
theorem Leads.of_frames (hp : p.Ready) (hsteps : Steps V p.function p q) (hways : q.ways = p.ways)
    (hloop : q.state.loop = p.state.loop) (hframes : q.state.frames = p.state.frames)
    (hhere : q.state.isOpen = true → p.here ⊆ q.here) :
  Leads V p q
  := by
  have hgrows := Steps.grows hsteps
  refine ⟨⟨hsteps, hways, hloop, by rw [hframes], hhere, fun hopen => ?_⟩,
    fun hopen frame hframe entry hentry => ?_⟩
  · rw [hframes]
    exact hp.owed.mono hgrows (hhere hopen)
  · rw [hframes] at hframe
    exact (hp.names frame (List.mem_of_mem_head? hframe) entry hentry).mono hgrows (hhere hopen)

/-- Steps after which control is in the same block. -/
theorem Straight.of_steps (hp : p.Ready) (hsteps : Steps V p.function p q) (hways : q.ways = p.ways)
    (hloop : q.state.loop = p.state.loop) (hframes : q.state.frames = p.state.frames)
    (hcurrent : q.state.current = p.state.current) (hopen : q.state.isOpen = true) :
  Straight V p q
  := by
  refine ⟨.of_frames hp hsteps hways hloop hframes fun _ => ?_, hopen, hcurrent, hframes⟩
  rw [here, LowerState.here, here, LowerState.here, hcurrent, (Steps.grows hsteps).passed _ hp.sound.current]

/-- Steps that control does not come out of. -/
theorem Leads.of_closed (hsteps : Steps V p.function p q) (hways : q.ways = p.ways)
    (hloop : q.state.loop = p.state.loop) (htail : q.state.frames.tail = p.state.frames.tail)
    (hclosed : q.state.isOpen = false) :
  Leads V p q
  := by
  refine ⟨⟨hsteps, hways, hloop, htail, ?_, ?_⟩, ?_⟩ <;> simp [hclosed]

/-- The end of a block. -/
theorem leads_terminate (hopen : p.state.isOpen = true) {t : Terminator}
    (ht : ∀ next ∈ t.successors, next ∈ p.ways) :
  Leads V p (p.terminate t)
  := .of_closed (.single (.terminate hopen ht)) rfl rfl rfl rfl

theorem Straight.refl (hp : p.Ready) :
  Straight V p p
  := .of_steps hp .refl rfl rfl rfl rfl hp.isOpen

/-- Nothing changes but the scopes, the variables and slots, and what is known of the unit. -/
theorem same_of_blocks {q : LowerState} (hblocks : q.function.blocks = p.function.blocks)
    (hentry : q.function.entry = p.function.entry) (hloops : q.function.loops = p.function.loops)
    (hslots : p.function.slots <+: q.function.slots) (hcurrent : q.current = p.state.current)
    (hopen : q.isOpen = p.state.isOpen) :
  p.Same { p with state := q }
  := by
  have hblock : ∀ id, q.function.block id = p.function.block id := fun id => by
    rw [Function.block, Function.block, hblocks]
  exact ⟨congrArg _ hblocks, fun id => congrArg _ (hblock id), fun id => congrArg _ (hblock id), hentry, hloops,
    hslots, hcurrent, hopen, rfl, subset_rfl⟩

theorem storesIn_emit (hcurrent : p.state.current < p.function.blocks.length) (slot : SlotId) (v : VarId)
    (span : Option Span) :
  (p.emit (.store slot v) span).function.StoresIn (p.emit (.store slot v) span).here slot
  := by
  refine ⟨p.state.current, Set.mem_insert _ _, v, ?_⟩
  rw [instrs_emit, if_pos ⟨rfl, hcurrent⟩]
  exact List.mem_append_right _ (List.mem_singleton_self _)

end Spot

/-! ## Actions -/

namespace Lower

open Spot

section

variable {α β : Type} {c : LowerContext} {p : Spot}
variable {x : Lower α} {k : α → Lower β}

/-- If an action succeeds, its result and where it leads to satisfy a condition. -/
def Walks (c : LowerContext) (p : Spot) (action : Lower α) (post : α → Spot → Prop) : Prop :=
  Ensures c p.state action fun a s' => ∃ q : Spot, q.state = s' ∧ post a q

namespace Walks

variable {x : Lower α} {k : α → Lower β} {post post' : α → Spot → Prop} {m : α → Spot → Prop}

theorem bind {post : β → Spot → Prop} (hx : Walks c p x m) (hk : ∀ a q, m a q → Walks c q (k a) post) :
  Walks c p (x >>= k) post
  := by
  refine Ensures.bind hx ?_
  rintro a _ ⟨q, rfl, hq⟩
  exact hk a q hq

theorem mono (h : Walks c p x post) (hpost : ∀ a q, post a q → post' a q) :
  Walks c p x post'
  := Ensures.mono h fun a _ ⟨q, hq, ha⟩ => ⟨q, hq, hpost a q ha⟩

/-- What is known of the state besides. -/
theorem and {post' : α → LowerState → Prop} (h : Walks c p x post) (h' : Ensures c p.state x post') :
  Walks c p x fun a q => post a q ∧ post' a q.state
  := by
  refine (Ensures.and h h').mono ?_
  rintro a _ ⟨⟨q, rfl, hq⟩, ha⟩
  exact ⟨q, rfl, hq, ha⟩

theorem pure {a : α} (h : post a p) :
  Walks c p (pure a) post
  := Ensures.pure ⟨p, rfl, h⟩

theorem fail {span : Span} {fault : LowerFault} :
  Walks c p (fail span fault : Lower α) post
  := Ensures.fail

theorem map {k : α → β} {post : β → Spot → Prop} (h : Walks c p x fun a => post (k a)) :
  Walks c p (k <$> x) post
  := Ensures.map h

theorem discard {post : Spot → Prop} (h : Walks c p x fun _ => post) :
  Walks c p (discard x) fun _ => post
  := Walks.map h

theorem bind_get {k : LowerState → Lower β} {post : β → Spot → Prop} (h : Walks c p (k p.state) post) :
  Walks c p (get >>= k) post
  := h

theorem bind_read {k : LowerContext → Lower β} {post : β → Spot → Prop} (h : Walks c p (k c) post) :
  Walks c p (read >>= k) post
  := h

theorem bind_isOpen {k : Bool → Lower β} {post : β → Spot → Prop} (h : Walks c p (k p.state.isOpen) post) :
  Walks c p (isOpen >>= k) post
  := h

theorem bind_slot? {name : String} {k : Option SlotId → Lower β} {post : β → Spot → Prop}
    (h : Walks c p (k (p.state.frames.slot? name)) post) :
  Walks c p (slot? name >>= k) post
  := h

theorem bind_required {span : Span} {fault : LowerFault} {value : Option α} {post : β → Spot → Prop}
    (h : ∀ a, value = some a → Walks c p (k a) post) :
  Walks c p (required span fault value >>= k) post
  := Ensures.bind_required h

/-- What follows a condition without which the action fails. -/
theorem unless_fail {b : Bool} {span : Span} {fault : LowerFault} {x : Lower β} {post : β → Spot → Prop}
    (h : b = true → Walks c p x post) :
  Walks c p (if b = true then x else Lower.fail span fault >>= k) post
  := Ensures.unless_fail h

/-- An action on a condition, and what follows in either case. -/
theorem bind_ite {b : Bool} {x : Lower Unit} {k : Unit → Lower β} {post : β → Spot → Prop} {m : Spot → Prop}
    (hthen : b = true → Walks c p x fun _ => m) (helse : b = false → m p)
    (hk : ∀ q, m q → Walks c q (k ()) post) :
  Walks c p (if b = true then x >>= k else k ()) post
  := by
  cases b with
  | true => exact (hthen rfl).bind fun _ => hk
  | false => exact hk p (helse rfl)

end Walks

/-- An action only looks something up. -/
def Reads (action : Lower α) : Prop := ∀ c s, Ensures c s action fun _ s' => s' = s

theorem Ensures.bind_reads {s : LowerState} {post : β → LowerState → Prop} (hx : Reads x)
    (hk : ∀ a, Ensures c s (k a) post) :
  Ensures c s (x >>= k) post
  := by
  refine (hx c s).bind ?_
  rintro a _ rfl
  exact hk a

theorem Walks.bind_reads {post : β → Spot → Prop} (hx : Reads x) (hk : ∀ a, Walks c p (k a) post) :
  Walks c p (x >>= k) post
  := Ensures.bind_reads hx hk

theorem Reads.bind (hx : Reads x) (hk : ∀ a, Reads (k a)) :
  Reads (x >>= k)
  := by
  intro c s
  refine (hx c s).bind ?_
  rintro a _ rfl
  exact hk a c _

theorem Reads.pure (a : α) :
  Reads (pure a)
  := fun _ _ => .pure rfl

theorem reads_fail (span : Span) (fault : LowerFault) :
  Reads (fail span fault : Lower α)
  := fun _ _ => .fail

theorem reads_read :
  Reads read
  := fun c _ => Ensures.pure (c := c) rfl

theorem reads_required (span : Span) (fault : LowerFault) (value : Option α) :
  Reads (required span fault value)
  := by
  cases value with
  | none => exact reads_fail span fault
  | some a => exact .pure a

theorem reads_concrete (span : Span) (type : Ty) :
  Reads (concrete span type)
  := .bind reads_read fun _ => reads_required _ _ _

theorem reads_typeOf (id : Nat) (span : Span) :
  Reads (typeOf id span)
  := .bind reads_read fun _ => .bind (reads_required _ _ _) fun _ => reads_concrete _ _

theorem reads_arrayLength (e : Expr) :
  Reads (arrayLength e)
  := by
  refine .bind (reads_typeOf e.id e.span) fun type => ?_
  split
  · exact .pure _
  · exact reads_fail _ _

theorem reads_tuplePosition (index : Expr) :
  Reads (tuplePosition index)
  := by
  unfold tuplePosition
  split
  · split
    · exact .pure _
    · exact reads_fail _ _
  · exact reads_fail _ _

theorem reads_paramTypes (span : Span) (sig : FunctionSig) :
  Reads (paramTypes span sig)
  := by
  rw [paramTypes]
  induction sig.paramTypes with
  | nil => exact .pure _
  | cons type types ih =>
    rw [List.mapM_cons]
    exact .bind (reads_required _ _ _) fun _ => .bind ih fun _ => .pure _

end

section

variable {c : LowerContext} (V : Expr → Prop) {p : Spot}
variable {slot : SlotId}

/-! ## Instructions -/

section

variable (hp : p.Ready)

include hp

/-- An instruction that stores nothing. -/
theorem walks_emit {i : Instr} (hread : ∀ slot, i.readSlot? = some slot → p.function.StoresIn p.here slot)
    (hwrite : ∀ slot, ¬i.Overwrites slot) (span : Option Span) :
  Walks c p (emit i span) fun _ q => Straight V p q
  := by
  rintro _ _ ⟨⟩
  refine ⟨p.emit i span, rfl, .of_steps hp (.single (.emit span hp.isOpen hread fun slot hi => ?_)) rfl rfl rfl
    rfl hp.isOpen⟩
  exact absurd hi (hwrite slot)

/-- An instruction that defines a new variable. -/
theorem walks_define {instr : VarId → Instr}
    (hread : ∀ v slot, (instr v).readSlot? = some slot → p.function.StoresIn p.here slot)
    (hdef : ∀ v, (instr v).def? = some v) (type : ValueType) (span : Option Span) :
  Walks c p (define type span instr) fun _ q => Straight V p q
  := by
  have hvar : Walks c p (freshVar type) fun _ q => Straight V p q ∧ q.function.blocks = p.function.blocks
      ∧ q.here = p.here := by
    rintro _ _ ⟨⟩
    refine ⟨⟨{ p.state with function := (p.function.freshVar type).2 }, p.passed, p.ways⟩, rfl,
      .of_steps hp (.single (.same ?_)) rfl rfl rfl rfl hp.isOpen, rfl, rfl⟩
    exact same_of_blocks rfl rfl rfl (List.prefix_refl _) rfl rfl
  refine hvar.bind fun v q ⟨hq, hblocks, hhere⟩ => ?_
  refine (walks_emit V (hq.ready hp) (fun slot hslot => ?_) (Instr.not_overwrites_of_def? (hdef v)) span).bind
    fun _ r hr => .pure (hq.trans hr)
  exact (hread v slot hslot).mono hhere.ge hq.grows.instrs

/-- A variable that is computed from others. -/
theorem walks_value {instr : VarId → Instr} (hread : ∀ v, (instr v).readSlot? = none)
    (hdef : ∀ v, (instr v).def? = some v) (type : ValueType) (span : Option Span) :
  Walks c p (define type span instr) fun _ q => Straight V p q
  := walks_define V hp (fun v slot hslot => absurd (hslot.symm.trans (hread v)) (by simp)) hdef type span

theorem walks_load (hslot : p.function.StoresIn p.here slot) (span : Option Span) :
  Walks c p (load slot span) fun _ q => Straight V p q
  := by
  refine .bind_get (walks_define V hp (fun v slot' h => ?_) (fun _ => rfl) _ span)
  exact Option.some.inj h ▸ hslot

/-- A new slot, and a value that is stored in it. -/
theorem walks_newSlot (name : Option String) (type : ValueType) (v : VarId) (span : Option Span) :
  Walks c p (do
      let slot ← freshSlot name type
      emit (.store slot v) span
      return slot)
    fun slot q => Straight V p q ∧ q.function.StoresIn q.here slot
      ∧ ∃ x, q.function.slots[slot]? = some x ∧ x.name = name
  := by
  rintro _ _ ⟨⟩
  set s : LowerState := { p.state with function :=
    { p.function with slots := p.function.slots ++ [⟨name, type⟩] } } with hs
  have hsame : p.Same { p with state := s } :=
    same_of_blocks rfl rfl rfl (List.prefix_append _ _) rfl rfl
  refine ⟨Spot.emit { p with state := s } (.store p.function.slots.length v) span, rfl,
    .of_steps hp (.tail (.single (.same hsame)) (.emit span hp.isOpen ?_ ?_)) rfl rfl rfl rfl hp.isOpen,
    storesIn_emit hp.sound.current _ _ _, ⟨name, type⟩, List.getElem?_concat_length, rfl⟩
  · rintro slot ⟨⟩
  · rintro slot ⟨⟨⟩, -⟩
    exact .inl le_rfl

theorem walks_blockParam (block : BlockId) (type : ValueType) :
  Walks c p (blockParam block type) fun _ q => Straight V p q
  := by
  rintro _ _ ⟨⟩
  set f := (p.function.freshVar type).2.modifyBlock block fun b =>
    { b with params := b.params ++ [p.function.varTypes.length] } with hf
  have hblock : ∀ id, (f.block id).instrs = (p.function.block id).instrs
      ∧ (f.block id).terminator = (p.function.block id).terminator := by
    intro id
    rw [hf, Function.block_modifyBlock_ite]
    split <;> exact ⟨rfl, rfl⟩
  refine ⟨⟨{ p.state with function := f }, p.passed, p.ways⟩, rfl, .of_steps hp (.single (.same ?_)) rfl rfl rfl
    rfl hp.isOpen⟩
  exact ⟨List.length_modify _ _ _, fun id => (hblock id).1, fun id => (hblock id).2, rfl, rfl, List.prefix_refl _,
    rfl, rfl, rfl, subset_rfl⟩

theorem walks_spill (v : VarId) (span : Option Span) :
  Walks c p (spill v span) fun slot q => Straight V p q ∧ q.function.StoresIn q.here slot
  := .bind_get ((walks_newSlot V hp none _ v span).mono fun _ _ ⟨hq, hstores, _⟩ => ⟨hq, hstores⟩)

theorem walks_call (callee : String) (args : List VarId) (convention : Convention) (result : ValueType)
    (isTail : Bool) (span : Option Span) :
  Walks c p (call callee args convention result isTail span) fun _ q => Straight V p q
  := by
  unfold call
  split
  · exact (walks_emit V hp (by simp [Instr.readSlot?]) (by simp [Instr.Overwrites, Instr.writtenSlot?])
      span).bind fun _ _ hq => .pure hq
  · exact (walks_value V hp (fun _ => rfl) (fun _ => rfl) _ span).bind fun _ _ hq => .pure hq

theorem walks_boundsCheck (id : Nat) (span : Span) (index : VarId) (length : Nat) :
  Walks c p (boundsCheck id span index length) fun _ q => Straight V p q
  := by
  refine .bind_read ?_
  split
  · exact walks_emit V hp (by simp [Instr.readSlot?]) (by simp [Instr.Overwrites, Instr.writtenSlot?]) _
  · exact .pure (.refl hp)

/-! ## Symbols, instances and warnings -/

theorem walks_modifyShared (change : UnitState → UnitState) :
  Walks c p (modifyShared change) fun _ q => Straight V p q
  := by
  rintro _ _ ⟨⟩
  refine ⟨⟨{ p.state with shared := change p.state.shared }, p.passed, p.ways⟩, rfl,
    .of_steps hp (.single (.same ?_)) rfl rfl rfl rfl hp.isOpen⟩
  exact same_of_blocks rfl rfl rfl (List.prefix_refl _) rfl rfl

theorem walks_runtimeCall (f : RuntimeFunction) (args : List VarId) (span : Option Span) :
  Walks c p (runtimeCall f args span) fun _ q => Straight V p q
  := by
  refine (walks_modifyShared V hp _).bind fun _ q hq => ?_
  exact (walks_call V (hq.ready hp) _ _ _ _ _ _).mono fun _ _ hr => hq.trans hr

theorem walks_callee (id : Nat) (span : Span) (sig : FunctionSig) (result : ValueType) :
  Walks c p (callee id span sig result) fun _ q => Straight V p q
  := by
  have huse : ∀ {α : Type} (library : Option String) (a : α), Walks c p (do
      useSymbol ⟨sig.name, library, ← paramTypes span sig, result⟩
      return a) fun _ q => Straight V p q := fun _ _ =>
    .bind_reads (reads_paramTypes span sig) fun _ => (walks_modifyShared V hp _).bind fun _ _ hq => .pure hq
  refine .bind_read ?_
  dsimp only
  split
  · exact huse _ _
  · split
    · refine .unless_fail fun _ => .bind_required fun inst _ => .bind_read (.unless_fail fun _ => ?_)
      refine Walks.bind (m := fun _ q => Straight V p q) ?_ fun _ _ hq => .pure hq
      exact (walks_modifyShared V hp _).bind fun _ _ hq => .pure hq
    · split
      · exact .pure (.refl hp)
      · exact huse _ _

theorem walks_callOn (id : Nat) (span : Span) (sig : FunctionSig) (args : List VarId) :
  Walks c p (callOn id span sig args) fun _ q => Straight V p q
  := by
  refine .bind_reads (reads_typeOf id span) fun result => (walks_callee V hp id span sig result).bind
    fun (name, convention) q hq => .bind_read (.bind_get ?_)
  exact (walks_call V (hq.ready hp) _ _ _ _ _ _).mono fun _ _ hr => hq.trans hr

theorem walks_name (id : Nat) (span : Span) (n : String) :
  Walks c p (name id span n) fun _ q => Straight V p q
  := by
  refine .bind_slot? ?_
  cases hslot : p.state.frames.slot? n with
  | some slot => exact walks_load V hp (hp.slot hslot).1 _
  | none =>
    refine .bind_read ?_
    dsimp only
    split
    · exact .bind .fail fun _ _ => False.elim
    · exact .bind_reads (reads_typeOf id span) fun type => walks_value V hp (fun _ => rfl) (fun _ => rfl) _ _

/-! ## Element assignment -/

theorem walks_openRows (span : Option Span) (hslot : p.function.StoresIn p.here slot) (path : List (Expr × VarId)) :
  Walks c p (openRows span slot path) fun rows q => Straight V p q
    ∧ ∀ row ∈ rows, q.function.StoresIn q.here row
  := by
  induction path generalizing p slot with
  | nil => exact .pure ⟨.refl hp, by simp⟩
  | cons step path ih =>
    obtain ⟨access, index⟩ := step
    refine .bind_reads (reads_typeOf access.id access.span) fun type => ?_
    refine Walks.bind (m := fun _ q => Straight V p q) ?_ fun row q hq => ?_
    · refine walks_define V hp ?_ (fun _ => rfl) type span
      rintro _ _ ⟨⟩
      exact hslot
    refine (walks_spill V (hq.ready hp) row span).bind fun rowSlot r ⟨hr, hrow⟩ => ?_
    have hr' := hq.trans hr
    refine (ih (hr'.ready hp) hrow).bind fun rows t ⟨ht, hrows⟩ => .pure ⟨hr'.trans ht, ?_⟩
    rw [List.forall_mem_cons]
    exact ⟨hrow.mono (ht.here ht.isOpen) ht.grows.instrs, hrows⟩

theorem walks_closeRows (span : Option Span) (hslot : p.function.StoresIn p.here slot) {rows : List (SlotId × VarId)}
    (hrows : ∀ row ∈ rows, p.function.StoresIn p.here row.1) :
  Walks c p (closeRows span slot rows) fun _ q => Straight V p q
  := by
  induction rows generalizing slot with
  | nil => exact .pure (.refl hp)
  | cons row rows ih =>
    obtain ⟨rowSlot, index⟩ := row
    rw [List.forall_mem_cons] at hrows
    refine (ih hrows.1 hrows.2).bind fun _ q hq => ?_
    have hgrows := hq.grows
    have hhere := hq.here hq.isOpen
    refine (walks_load V (hq.ready hp) (hrows.1.mono hhere hgrows.instrs) span).bind fun v r hr => ?_
    have hr' := hq.trans hr
    refine (walks_emit V (hr'.ready hp) (fun slot' h => ?_)
      (by simp [Instr.Overwrites, Instr.access?]) span).mono fun _ _ ht => hr'.trans ht
    exact Option.some.inj h ▸ hslot.mono (hr'.here hr'.isOpen) hr'.grows.instrs

theorem walks_assignElement (span : Option Span) {root : SlotId} (hroot : p.function.StoresIn p.here root)
    (accesses : List Expr) (indices : List VarId) (index value : VarId) :
  Walks c p (assignElement span root accesses indices index value) fun _ q => Straight V p q
  := by
  refine (walks_openRows V hp span hroot (accesses.zip indices)).bind fun rows q ⟨hq, hrows⟩ => ?_
  have hroot' := hroot.mono (hq.here hq.isOpen) hq.grows.instrs
  have hlast : q.function.StoresIn q.here ((root :: rows).getLast?.getD root) := by
    have hall := List.forall_mem_cons.mpr ⟨hroot', hrows⟩
    rw [List.getLast?_eq_some_getLast (List.cons_ne_nil _ _), Option.getD_some]
    exact hall _ (List.getLast_mem _)
  refine Walks.bind (m := fun _ r => Straight V q r) ?_ fun _ r hr => ?_
  · refine walks_emit V (hq.ready hp) ?_ (by simp [Instr.Overwrites, Instr.access?]) span
    rintro _ ⟨⟩
    exact hlast
  have hr' := hq.trans hr
  have hkept : ∀ slot, q.function.StoresIn q.here slot → r.function.StoresIn r.here slot :=
    fun slot h => h.mono (hr.here hr.isOpen) hr.grows.instrs
  refine (walks_closeRows V (hr'.ready hp) span (hkept _ hroot') fun row hrow => ?_).mono
    fun _ _ ht => hr'.trans ht
  exact hkept _ (hrows _ (List.of_mem_zip hrow).1)

/-! ## Scopes -/

theorem walks_leave {exits : List ExitAction} (hexits : p.Releases exits) :
  Walks c p (leave exits) fun _ q => Straight V p q
  := by
  induction exits generalizing p with
  | nil => exact .pure (.refl hp)
  | cons action exits ih =>
    have hrest : p.Releases exits := fun slot hslot => hexits slot (List.mem_cons_of_mem _ hslot)
    have hnext : ∀ q, Straight V p q → Walks c q (leave exits) fun _ r => Straight V p r := fun q hq =>
      (ih (hq.ready hp) (hrest.mono hq.grows (hq.here hq.isOpen))).mono fun _ _ hr => hq.trans hr
    cases action with
    | release slot =>
      refine (walks_load V hp (hexits slot (List.mem_cons_self ..)) none).bind fun pointer q hq => ?_
      refine (walks_emit V (hq.ready hp) (by simp [Instr.readSlot?])
        (by simp [Instr.Overwrites, Instr.writtenSlot?]) none).bind fun _ r hr => ?_
      exact hnext r (hq.trans hr)
    | endAtomic => exact (walks_runtimeCall V hp .atomicEnd [] none).discard.bind fun _ => hnext

/-- Something more in the innermost scope. -/
theorem walks_modifyFrames (change : Frame → Frame)
    (hnames : ∀ frame ∈ p.state.frames.head?, ∀ entry ∈ (change frame).names, p.Stores entry)
    (hexits : ∀ frame ∈ p.state.frames.head?, p.Releases (change frame).exits) :
  Walks c p (modify fun s => { s with frames := s.frames.modifyInner change }) fun _ q => Leads V p q
    ∧ q.state.isOpen = true ∧ q.state.frames = p.state.frames.modifyInner change
  := by
  rintro _ _ ⟨⟩
  set s : LowerState := { p.state with frames := p.state.frames.modifyInner change } with hs
  have hsame : p.Same { p with state := s } :=
    same_of_blocks rfl rfl rfl (List.prefix_refl _) rfl rfl
  refine ⟨{ p with state := s }, rfl, ⟨⟨.single (.same hsame), rfl, rfl, ?_, fun _ => subset_rfl, fun _ => ?_⟩,
    fun _ frame hframe => ?_⟩, hp.isOpen, rfl⟩
  · cases hframes : p.state.frames <;> simp [hs, hframes, Frames.modifyInner]
  · cases hframes : p.state.frames with
    | nil => simp [hs, hframes, Frames.modifyInner, Frames.owed, Releases]
    | cons first rest =>
      simp only [hs, hframes, Frames.modifyInner, Frames.owed, List.head?_cons, Option.map_some, Option.getD_some]
      exact hexits first (by simp [hframes])
  · cases hframes : p.state.frames with
    | nil => simp [hs, hframes, Frames.modifyInner] at hframe
    | cons first rest =>
      obtain rfl : change first = frame := by simpa [hs, hframes, Frames.modifyInner] using hframe
      exact hnames first (by simp [hframes])

end

theorem mem_of_mem_head? {frames : Frames} {frame : Frame} (h : frame ∈ frames.head?) :
  frame ∈ frames
  := List.mem_of_mem_head? h

theorem walks_owe (hp : p.Ready) {action : ExitAction} (haction : p.Releases [action]) :
  Walks c p (owe action) fun _ q => Leads V p q ∧ q.state.isOpen = true
  := by
  refine (walks_modifyFrames V hp (fun frame => { frame with exits := action :: frame.exits })
    (fun frame hframe => hp.names frame (mem_of_mem_head? hframe)) fun frame hframe slot hslot => ?_).mono
      fun _ _ ⟨hq, hopen, _⟩ => ⟨hq, hopen⟩
  rcases List.mem_cons.mp hslot with heq | hslot
  · exact haction slot (heq ▸ List.mem_singleton_self _)
  · exact hp.exits frame (mem_of_mem_head? hframe) slot hslot

theorem walks_releaseAtExit (hp : p.Ready) (hslot : p.function.StoresIn p.here slot) (span : Span)
    (name : Option String) :
  Walks c p (releaseAtExit slot span name) fun _ q => Leads V p q ∧ q.state.isOpen = true
  := by
  refine (walks_modifyShared V hp _).bind fun _ q hq => ?_
  refine (walks_owe V (hq.ready hp) fun slot' hslot' => ?_).mono
    fun _ r hr => ⟨.trans hq.toMoves hq.isOpen hr.1, hr.2⟩
  obtain rfl : slot' = slot := by simpa using hslot'
  exact hslot.mono (hq.here hq.isOpen) hq.grows.instrs

/-- A name for a new slot. -/
theorem walks_bindNew (hp : p.Ready) (name : String) (type : ValueType) (v : VarId) (span : Option Span) :
  Walks c p (do
      let slot ← freshSlot (some name) type
      emit (.store slot v) span
      bindName name slot
      return slot)
    fun slot q => Leads V p q ∧ q.state.isOpen = true
    ∧ q.state.frames.owed = p.state.frames.owed ∧ q.function.StoresIn q.here slot
  := by
  suffices hbind : Walks c p (do
      let slot ← (do
        let slot ← freshSlot (some name) type
        emit (.store slot v) span
        return slot)
      bindName name slot
      return slot) fun slot q => Leads V p q ∧ q.state.isOpen = true
        ∧ q.state.frames.owed = p.state.frames.owed ∧ q.function.StoresIn q.here slot by
    simpa only [bind_assoc, pure_bind] using hbind
  refine (walks_newSlot V hp (some name) type v span).bind fun slot q ⟨hq, hstores, hnamed⟩ => ?_
  have hready := hq.ready hp
  refine (walks_modifyFrames V hready (fun frame => { frame with names := (name, slot) :: frame.names })
    (fun frame hframe entry hentry => ?_) fun frame hframe => hready.exits frame (mem_of_mem_head? hframe)).bind
      fun _ r ⟨hr, hopen, hframes⟩ => .pure ⟨.trans hq.toMoves hq.isOpen hr, hopen, ?_, ?_⟩
  · rcases List.mem_cons.mp hentry with rfl | hentry
    · exact ⟨hstores, hnamed⟩
    · exact hready.names frame (mem_of_mem_head? hframe) entry hentry
  · rw [hframes, hq.frames]
    cases p.state.frames <;> rfl
  · exact hstores.mono (hr.here hopen) hr.grows.instrs

theorem walks_bindValue (hp : p.Ready) (name : String) (type : ValueType) (v : VarId) (span : Span) :
  Walks c p (bindValue name type v span) fun slot q => Leads V p q ∧ q.state.isOpen = true
    ∧ q.state.frames.owed = p.state.frames.owed ∧ q.function.StoresIn q.here slot
  := walks_bindNew V hp name type v (some span)

/-- A scope around an action that only has to keep what is owed. -/
theorem walks_inScope {α : Type} {action : Lower α} {R : α → Prop} (hp : p.Ready)
    (haction : ∀ q : Spot, q.Ready → q.function = p.function → q.state.frames = .empty :: p.state.frames →
      Walks c q action fun a r => Moves V q r ∧ (R a → r.state.isOpen = true)) :
  Walks c p (inScope action) fun a q => Leads V p q ∧ q.state.frames = p.state.frames
    ∧ (R a → q.state.isOpen = true)
  := by
  set s : LowerState := { p.state with frames := .empty :: p.state.frames } with hs
  have hsame : p.Same { p with state := s } :=
    same_of_blocks rfl rfl rfl (List.prefix_refl _) rfl rfl
  have hready : Ready { p with state := s } := by
    have hstep : Step V p.function p { p with state := s } := .same hsame
    refine ⟨hstep.sound hp.sound, hp.isOpen, ?_, ?_, hp.targets⟩
    · exact List.forall_mem_cons.mpr ⟨by simp [Frame.empty], hp.names⟩
    · exact List.forall_mem_cons.mpr ⟨by simp [Frame.empty, Releases], hp.exits⟩
  refine Ensures.bind_modify ((haction { p with state := s } hready rfl rfl).bind ?_)
  rintro a q ⟨hq, hR⟩
  refine Walks.bind_get (Ensures.bind_modify ?_)
  -- the scope is gone before what is owed is done
  set s' : LowerState := { q.state with frames := q.state.frames.tail } with hs'
  have hsame' : q.Same { q with state := s' } :=
    same_of_blocks rfl rfl rfl (List.prefix_refl _) rfl rfl
  have hsteps : Steps V p.function p { q with state := s' } :=
    .tail (.head (.same hsame) hq.steps) (.same hsame')
  have hleads : Leads V p { q with state := s' } :=
    .of_frames hp hsteps hq.ways hq.loop hq.tail hq.here
  refine Walks.bind_isOpen (p := { q with state := s' }) ?_
  by_cases hopen : s'.isOpen = true
  · rw [if_pos hopen]
    refine (walks_leave V (p := { q with state := s' }) (hleads.ready hp hopen) (hq.exits hopen)).bind
      fun _ r hr => .pure ⟨.trans hleads.toMoves hopen hr.toLeads, hr.frames.trans hq.tail, fun _ => hr.isOpen⟩
  · rw [if_neg hopen]
    exact .pure (p := { q with state := s' }) ⟨hleads, hq.tail, fun ha => absurd (hR ha) hopen⟩

/-! ## Jumps -/

theorem releases_exitsTo (hp : p.Ready) (depth : Nat) :
  p.Releases (p.state.frames.exitsTo depth)
  := by
  intro slot hslot
  obtain ⟨frame, hframe, hslot⟩ := List.mem_flatMap.mp hslot
  exact hp.exits frame (List.mem_of_mem_take hframe) slot hslot

theorem walks_terminate (hopen : p.state.isOpen = true) {t : Terminator}
    (ht : ∀ next ∈ t.successors, next ∈ p.ways) :
  Walks c p (terminate t) fun _ q => Leads V p q ∧ q.state.isOpen = false
    ∧ q.state.frames = p.state.frames
  := by
  rintro _ _ ⟨⟩
  exact ⟨p.terminate t, rfl, leads_terminate hopen ht, rfl, rfl⟩

/-- What is owed on the way out is done before a jump. -/
theorem walks_leaveTo (hp : p.Ready) (depth : Nat) {t : Terminator}
    (ht : ∀ next ∈ t.successors, next ∈ p.ways) :
  Walks c p (do
      leave (p.state.frames.exitsTo depth)
      terminate t)
    fun _ q => Leads V p q ∧ q.state.isOpen = false ∧ q.state.frames = p.state.frames
  := by
  refine (walks_leave V hp (releases_exitsTo hp depth)).bind fun _ q hq => ?_
  refine (walks_terminate V hq.isOpen (hq.ways ▸ ht)).mono fun _ r ⟨hr, hclosed, hframes⟩ => ?_
  exact ⟨.trans hq.toMoves hq.isOpen hr, hclosed, hframes.trans hq.frames⟩

theorem walks_jumpInLoop (hp : p.Ready) {targets : LoopTargets} {target : BlockId} (htarget : target ∈ p.ways) :
  Walks c p (jumpInLoop targets target) fun _ q => Leads V p q ∧ q.state.isOpen = false
    ∧ q.state.frames = p.state.frames
  := .bind_get (walks_leaveTo V hp targets.depth (by simpa [Terminator.successors] using htarget))

theorem walks_returnValue (hp : p.Ready) (span : Span) (value : Option VarId) :
  Walks c p (returnValue span value) fun _ q => Leads V p q ∧ q.state.isOpen = false
    ∧ q.state.frames = p.state.frames
  := by
  have hend : ∀ q (t : Terminator), Straight V p q → t.successors = [] →
      Walks c q (terminate t) fun _ r => Leads V p r ∧ r.state.isOpen = false
        ∧ r.state.frames = p.state.frames := by
    intro q t hq ht
    refine (walks_terminate V hq.isOpen (by simp [ht])).mono fun _ r ⟨hr, hclosed, hframes⟩ => ?_
    exact ⟨.trans hq.toMoves hq.isOpen hr, hclosed, hframes.trans hq.frames⟩
  refine .bind_get ((walks_leave V hp (releases_exitsTo hp 0)).bind fun _ q hq => .bind_get ?_)
  split
  · exact hend q _ hq rfl
  · exact .bind_required fun v _ => hend q _ hq rfl

end

end Lower

end FormCompiler
