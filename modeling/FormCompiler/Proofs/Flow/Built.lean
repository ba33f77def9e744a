import FormCompiler.Proofs.Flow.Rename

/-!
# Functions under construction

A function is made block by block, and while it is made nobody knows which blocks will be reachable.
So what control has passed before it comes to a block is written down when the block is made: `Passed`
holds, for each block, some blocks that are on every way to it. As long as each new edge respects
this, the blocks that are written down dominate the block in the end (`Built.dominates`), and
everything that a block reads has been defined (`Built.isSsa`).

`Function.Built` is what construction keeps true. It also says that element accesses are guarded: the
index is a constant in range or has been compared with the length. Its types are right under a
condition `typed`, since an instance of a generic function may be made of operators that its types do
not have.
-/

namespace FormCompiler.Flow

/-! ## Element accesses -/

/-- The slot and the index of an element access. -/
def Instr.access? : Instr → Option (SlotId × VarId)
  | .loadElement _ slot index | .storeElement slot index _ => some (slot, index)
  | _ => none

/-- A variable is set to an integer from zero up to a length. -/
def Function.IsInRange (f : Function) (v : VarId) (length : Nat) : Prop :=
  ∃ id, ∃ c : Int, .set v (.const (.int c)) ∈ (f.block id).instrs ∧ 0 ≤ c ∧ c < length

/--
All indices of instructions are in range: they are constants, or compared with the length before, by
a check that is known or by one of the instructions.
-/
def Guarded (f : Function) (checked : VarId → Nat → Prop) : List Instr → Prop
  | [] => True
  | i :: rest =>
    (∀ slot index, i.access? = some (slot, index) → ∀ element length,
      f.slotType slot = .array element length → f.IsInRange index length ∨ checked index length)
    ∧ Guarded f (fun v length => checked v length ∨ i = .boundsCheck v length) rest

theorem Guarded.mono {f g : Function} {checked checked' : VarId → Nat → Prop} {instrs : List Instr}
    (h : Guarded f checked instrs) (hchecked : ∀ v length, checked v length → checked' v length)
    (hrange : ∀ v length, f.IsInRange v length → g.IsInRange v length)
    (hslots : ∀ i ∈ instrs, ∀ slot index, i.access? = some (slot, index) →
      g.slotType slot = f.slotType slot) :
  Guarded g checked' instrs
  := by
  induction instrs generalizing checked checked' with
  | nil => trivial
  | cons i rest ih =>
    obtain ⟨hfirst, hrest⟩ := h
    refine ⟨fun slot index hi element length hslot => ?_, ih hrest ?_ fun i hi => ?_⟩
    · rw [hslots i (by simp) slot index hi] at hslot
      exact (hfirst slot index hi element length hslot).imp (hrange _ _) (hchecked _ _)
    · exact fun v length => Or.imp_left (hchecked v length)
    · exact hslots i (List.mem_cons_of_mem _ hi)

theorem guarded_append {f : Function} {checked : VarId → Nat → Prop} {first second : List Instr} :
  Guarded f checked (first ++ second)
    ↔ Guarded f checked first
      ∧ Guarded f (fun v length => checked v length ∨ .boundsCheck v length ∈ first) second
  := by
  induction first generalizing checked with
  | nil => simp [Guarded]
  | cons i first ih =>
    simp only [List.cons_append, Guarded, ih, and_assoc, List.mem_cons, or_assoc, eq_comm (b := i)]

/-! ## Blocks that control has passed -/

/-- For each block, blocks that control has passed before it comes to the block. -/
abbrev Passed := BlockId → Set BlockId

namespace Function

variable {f g : Function}
variable {passed : Passed} {d id : BlockId} {typed : Prop}

/-- A variable is defined in one of some blocks. -/
def DefinesIn (f : Function) (blocks : Set BlockId) (v : VarId) : Prop :=
  ∃ d ∈ blocks, v ∈ (f.block d).defs

/-- An index is compared with a length in one of some blocks. -/
def ChecksIn (f : Function) (blocks : Set BlockId) (v : VarId) (length : Nat) : Prop :=
  ∃ d ∈ blocks, .boundsCheck v length ∈ (f.block d).instrs

/-- A slot holds arrays. -/
def IsArray (f : Function) (slot : SlotId) : Prop :=
  ∃ element length, f.slotType slot = .array element length

theorem IsArray.lt {slot : SlotId} (h : f.IsArray slot) :
  slot < f.slots.length
  := by
  obtain ⟨element, length, hslot⟩ := h
  by_contra hge
  simp [slotType, List.getElem?_eq_none (Nat.le_of_not_lt hge)] at hslot

/-- What construction keeps true of a block. -/
structure BuiltBlock (typed : Prop) (passed : Passed) (f : Function) (id : BlockId) : Prop where
  reads : Scoped (fun v => v ∈ (f.block id).params ∨ f.DefinesIn (passed id) v) (f.block id).instrs
    (f.block id).terminator.uses
  guarded : Guarded f (f.ChecksIn (passed id)) (f.block id).instrs
  slots : ∀ i ∈ (f.block id).instrs, ∀ slot index, i.access? = some (slot, index) → f.IsArray slot
  targets : ∀ next ∈ f.successors id, next < f.blocks.length ∧ passed next ⊆ insert id (passed id)
  jump : ∀ target args, (f.block id).terminator = .jump target args →
    (f.block target).params.length = args.length
  branch : ∀ test thenBlock elseBlock, (f.block id).terminator = .branch test thenBlock elseBlock →
    ∀ next ∈ [thenBlock, elseBlock], (f.block next).params = []
  right : typed → Verify.block f (f.block id) = .ok ()

/-- What construction keeps true of a function. -/
structure Built (typed : Prop) (passed : Passed) (f : Function) : Prop where
  entry : f.entry < f.blocks.length
  params : (f.block f.entry).params = f.params
  first : passed f.entry = ∅
  nodup : (f.blocks.flatMap Block.defs).Nodup
  bounded : ∀ id, ∀ v ∈ (f.block id).defs, v < f.varTypes.length
  block : ∀ id, f.BuiltBlock typed passed id
  loops : ∀ l ∈ f.loops, ∀ b ∈ l.preheader :: l.header :: l.latch :: l.exit :: l.blocks,
    b < f.blocks.length

/-! ## What has been passed dominates -/

/-- What control has passed when it comes to a block, it has passed on all ways there. -/
structure Passes (passed : Passed) (f : Function) : Prop where
  first : passed f.entry = ∅
  targets : ∀ id, ∀ next ∈ f.successors id, passed next ⊆ insert id (passed id)

theorem Passes.not_mem_of_reaches (h : f.Passes passed) (hid : f.Reaches [d] id) :
  d ∉ passed id
  := by
  induction hid with
  | entry => simp [h.first]
  | @step id next hreaches hnext _ ih =>
    intro hd
    obtain rfl | hd := h.targets id next hnext hd
    · exact Function.not_mem_of_reaches hreaches (by simp)
    · exact ih hd

/-- Control comes to a block for the first time at the entry or from a block that is reached without it. -/
theorem Reaches.arrives {e : BlockId} (h : f.Reaches [] id) :
  f.Reaches [e] id ∨ f.entry = e ∨ ∃ id', f.Reaches [e] id' ∧ e ∈ f.successors id'
  := by
  induction h with
  | entry =>
    by_cases heq : f.entry = e
    · exact .inr (.inl heq)
    · exact .inl (.entry (by simpa using heq))
  | @step id next _ hnext _ ih =>
    rcases ih with hreaches | harrives
    · by_cases heq : next = e
      · exact .inr (.inr ⟨id, hreaches, heq ▸ hnext⟩)
      · exact .inl (.step hreaches hnext (by simpa using heq))
    · exact .inr harrives

/-- What has been passed on the way to a reachable block is another block that dominates it. -/
theorem Passes.dominates (h : f.Passes passed) (hid : id ∈ f.reversePostorder) (hd : d ∈ passed id) :
  d ≠ id ∧ f.dominates d id = true
  := by
  refine ⟨?_, dominates_iff.mpr (.inr ⟨hid, fun hreaches => h.not_mem_of_reaches hreaches hd⟩)⟩
  rintro rfl
  rcases (mem_reachedAvoiding.mp hid).arrives (e := d) with hreaches | rfl | ⟨id, hreaches, hnext⟩
  · exact h.not_mem_of_reaches hreaches hd
  · simp [h.first] at hd
  · obtain rfl | hd := h.targets id d hnext hd
    · exact Function.not_mem_of_reaches hreaches (by simp)
    · exact h.not_mem_of_reaches hreaches hd

theorem Built.passes (h : f.Built typed passed) :
  f.Passes passed
  := ⟨h.first, fun id next hnext => ((h.block id).targets next hnext).2⟩

theorem Built.dominates (h : f.Built typed passed) (hid : id ∈ f.reversePostorder) (hd : d ∈ passed id) :
  d ≠ id ∧ f.dominates d id = true
  := h.passes.dominates hid hd

/-- A function that has been made is in single assignment form. -/
theorem Built.isSsa (h : f.Built typed passed) :
  f.IsSsa
  := by
  have hblock : ∀ {id : BlockId} {b}, f.blocks[id]? = some b → f.block id = b := by
    intro id b hb
    simp [Function.block, hb]
  refine isSsa_iff.mpr ⟨⟨f.block f.entry, ?_, h.params⟩, h.nodup, ?_, ?_, ?_⟩
  · simp [Function.block, h.entry]
  · intro id b target args hb hterminator
    obtain rfl := hblock hb
    refine ⟨((h.block id).targets target ?_).1, (h.block id).jump target args hterminator⟩
    simp [successors, hterminator, Terminator.successors]
  · intro id b test thenBlock elseBlock hb hterminator next hnext
    obtain rfl := hblock hb
    refine ⟨((h.block id).targets next ?_).1, (h.block id).branch _ _ _ hterminator next hnext⟩
    simpa [successors, hterminator, Terminator.successors] using hnext
  · intro id hid b hb
    obtain rfl := hblock hb
    refine (h.block id).reads.mono fun v hv => hv.imp_right ?_
    rintro ⟨d, hd, hv⟩
    obtain ⟨hne, hdominates⟩ := h.dominates hid hd
    exact ⟨d, hne, hdominates, hv⟩

/-- A function that has been made is well-formed if its types are right. -/
theorem Built.verify (h : f.Built typed passed) (htyped : typed) :
  f.verify = .ok ()
  := by
  refine verify_iff.mpr ⟨h.isSsa, ?_, fun v hv => ?_, fun b hb => ?_⟩
  · simp only [Verify.shape, check_bind_eq_ok, Verify.ensure_eq_ok, forM_eq_ok, decide_eq_true_eq]
    exact ⟨h.entry, h.params, h.loops⟩
  · obtain ⟨b, hb, hv⟩ := List.mem_flatMap.mp hv
    obtain ⟨id, hid⟩ := List.getElem?_of_mem hb
    exact h.bounded id v (by simpa [Function.block, hid] using hv)
  · obtain ⟨id, hid⟩ := List.getElem?_of_mem hb
    simpa [Function.block, hid] using (h.block id).right htyped

/-! ## Functions with more in them -/

/-- A function with everything that another one has. -/
structure Widens (f g : Function) : Prop where
  result : g.result = f.result
  varTypes : f.varTypes <+: g.varTypes
  slots : f.slots <+: g.slots
  length : f.blocks.length ≤ g.blocks.length
  params : ∀ id, ∀ v ∈ (f.block id).params, v ∈ (g.block id).params
  instrs : ∀ id, ∀ i ∈ (f.block id).instrs, i ∈ (g.block id).instrs

namespace Widens

variable {v : VarId} {blocks blocks' : Set BlockId} {slot : SlotId}

theorem refl (f : Function) :
  f.Widens f
  := ⟨rfl, List.prefix_refl _, List.prefix_refl _, le_rfl, fun _ _ => id, fun _ _ => id⟩

theorem trans {h : Function} (hfg : f.Widens g) (hgh : g.Widens h) :
  f.Widens h
  := by
  refine ⟨hgh.result.trans hfg.result, hfg.varTypes.trans hgh.varTypes, hfg.slots.trans hgh.slots,
    hfg.length.trans hgh.length, fun id v hv => ?_, fun id i hi => ?_⟩
  · exact hgh.params id v (hfg.params id v hv)
  · exact hgh.instrs id i (hfg.instrs id i hi)

variable (h : f.Widens g)

include h

theorem mem_defs {id : BlockId} (hv : v ∈ (f.block id).defs) :
  v ∈ (g.block id).defs
  := by
  rcases List.mem_append.mp hv with hv | hv
  · exact List.mem_append_left _ (h.params id v hv)
  · obtain ⟨i, hi, hdef⟩ := List.mem_filterMap.mp hv
    exact List.mem_append_right _ (List.mem_filterMap.mpr ⟨i, h.instrs id i hi, hdef⟩)

theorem definesIn (hblocks : blocks ⊆ blocks') (hv : f.DefinesIn blocks v) :
  g.DefinesIn blocks' v
  := by
  obtain ⟨d, hd, hv⟩ := hv
  exact ⟨d, hblocks hd, h.mem_defs hv⟩

theorem checksIn (hblocks : blocks ⊆ blocks') {length : Nat} (hv : f.ChecksIn blocks v length) :
  g.ChecksIn blocks' v length
  := by
  obtain ⟨d, hd, hv⟩ := hv
  exact ⟨d, hblocks hd, h.instrs d _ hv⟩

theorem isInRange {length : Nat} (hv : f.IsInRange v length) :
  g.IsInRange v length
  := by
  obtain ⟨id, c, hset, hrange⟩ := hv
  exact ⟨id, c, h.instrs id _ hset, hrange⟩

theorem getElem?_varTypes {type : ValueType} (hv : f.varTypes[v]? = some type) :
  g.varTypes[v]? = some type
  := by
  obtain ⟨more, hmore⟩ := h.varTypes
  rw [← hmore, List.getElem?_append_left (List.getElem?_eq_some_iff.mp hv).1, hv]

theorem getElem?_slots {x : Slot} (hslot : f.slots[slot]? = some x) :
  g.slots[slot]? = some x
  := by
  obtain ⟨more, hmore⟩ := h.slots
  rw [← hmore, List.getElem?_append_left (List.getElem?_eq_some_iff.mp hslot).1, hslot]

theorem slotType (hslot : slot < f.slots.length) :
  g.slotType slot = f.slotType slot
  := by
  have hsome : f.slots[slot]? = some f.slots[slot] := List.getElem?_eq_getElem hslot
  rw [Function.slotType, Function.slotType, hsome, h.getElem?_slots hsome]

theorem isArray (hslot : f.IsArray slot) :
  g.IsArray slot
  := by
  rw [IsArray, h.slotType hslot.lt]
  exact hslot

/-- More slots do no harm to instructions. -/
theorem keeps_slotType (slot : SlotId) :
  Keeps (Verify.slotType f slot) (Verify.slotType g slot)
  := by
  intro type htype
  rw [Verify.slotType_eq_ok] at htype ⊢
  obtain ⟨x, hx, htype⟩ := htype
  exact ⟨x, h.getElem?_slots hx, htype⟩

theorem keeps_arrayIn (slot : SlotId) :
  Keeps (Verify.arrayIn f slot) (Verify.arrayIn g slot)
  := (h.keeps_slotType slot).bind fun _ => .refl _

/-- Instructions stay right if there are more variables and slots. -/
theorem keeps_instr (i : Instr) :
  Keeps (Verify.instr f i) (Verify.instr g i)
  := by
  -- variables and slots come one after the other; only some instructions look at slots
  have hextends : ({ f with slots := g.slots } : Function).Extends g := ⟨rfl, h.varTypes⟩
  have hslots : Keeps (Verify.instr f i) (Verify.instr { f with slots := g.slots } i) := by
    have hwidens : f.Widens { f with slots := g.slots } :=
      ⟨rfl, List.prefix_refl _, h.slots, le_rfl, fun _ _ => id, fun _ _ => id⟩
    cases i with
    | load dst s | store s dst =>
      exact (hwidens.keeps_slotType s).bind fun _ => .refl _
    | loadElement v s index | storeElement s index v | loadLanes v s start | storeLanes s start v =>
      exact (hwidens.keeps_arrayIn s).bind fun _ => .refl _
    | set dst value => cases value <;> exact .refl _
    | call dst => cases dst <;> exact .refl _
    | _ => exact .refl _
  exact fun a ha => Verify.keeps_instr hextends i a (hslots a ha)

/-- Terminators stay right if the parameters of their targets do not change. -/
theorem keeps_terminator {t : Terminator}
    (hparams : ∀ next ∈ t.successors, (g.block next).params = (f.block next).params) :
  Keeps (Verify.terminator f t) (Verify.terminator g t)
  := by
  rintro ⟨⟩ ht
  cases t with
  | ret value =>
    cases value with
    | none => simpa only [Verify.terminator, h.result] using ht
    | some v =>
      simp only [Verify.terminator, Verify.expect_eq_ok, h.result] at ht ⊢
      exact h.getElem?_varTypes ht
  | jump target args =>
    rw [Verify.jump_eq_ok] at ht ⊢
    rw [hparams target (by simp [Terminator.successors])]
    obtain ⟨htarget, hlength, hargs⟩ := ht
    refine ⟨htarget.trans_le h.length, hlength, fun pair hpair => ?_⟩
    obtain ⟨type, harg, hparam⟩ := hargs pair hpair
    exact ⟨type, h.getElem?_varTypes harg, h.getElem?_varTypes hparam⟩
  | branch test thenBlock elseBlock =>
    rw [Verify.branch_eq_ok] at ht ⊢
    refine ⟨h.getElem?_varTypes ht.1, fun next hnext => ?_⟩
    rw [hparams next hnext]
    exact ⟨(ht.2 next hnext).1.trans_le h.length, (ht.2 next hnext).2⟩
  | unreachable => rfl

end Widens

/-- A block that is left alone stays as it has to be. -/
theorem BuiltBlock.widen {passed' : Passed} (h : f.BuiltBlock typed passed id) (hg : f.Widens g)
    (hblock : g.block id = f.block id) (hpassed : passed' id = passed id)
    (hnext : ∀ next ∈ f.successors id, passed' next = passed next)
    (hparams : ∀ next ∈ f.successors id, (g.block next).params = (f.block next).params) :
  g.BuiltBlock typed passed' id
  := by
  have hsuccessors : g.successors id = f.successors id := by
    rw [successors, successors, hblock]
  constructor
  · rw [hblock, hpassed]
    exact h.reads.mono fun v => Or.imp_right (hg.definesIn subset_rfl)
  · rw [hblock, hpassed]
    refine h.guarded.mono (fun _ _ => hg.checksIn subset_rfl) (fun _ _ => hg.isInRange) ?_
    exact fun i hi slot index hslot => hg.slotType (h.slots i hi slot index hslot).lt
  · rw [hblock]
    exact fun i hi slot index hslot => hg.isArray (h.slots i hi slot index hslot)
  · intro next hmem
    rw [hsuccessors] at hmem
    rw [hpassed, hnext next hmem]
    exact ⟨(h.targets next hmem).1.trans_le hg.length, (h.targets next hmem).2⟩
  · intro target args hterminator
    rw [hblock] at hterminator
    rw [hparams target (by simp [successors, hterminator, Terminator.successors])]
    exact h.jump target args hterminator
  · intro test thenBlock elseBlock hterminator next hmem
    rw [hblock] at hterminator
    rw [hparams next (by simpa [successors, hterminator, Terminator.successors] using hmem)]
    exact h.branch test thenBlock elseBlock hterminator next hmem
  · intro htyped
    rw [hblock]
    obtain ⟨hinstrs, hterminator⟩ := check_bind_eq_ok.mp (h.right htyped)
    refine check_bind_eq_ok.mpr ⟨?_, hg.keeps_terminator hparams () hterminator⟩
    exact Keeps.forM (fun i => hg.keeps_instr i) () hinstrs

/-! ## Steps of construction -/

section

variable {typed : Prop} {passed : Passed}

/-- What is defined up to the end of a block. -/
theorem definesIn_insert {blocks : Set BlockId} {v : VarId} :
  f.DefinesIn (insert id blocks) v ↔ (v ∈ (f.block id).params ∨ f.DefinesIn blocks v)
    ∨ ∃ i ∈ (f.block id).instrs, i.def? = some v
  := by
  simp only [DefinesIn, Set.mem_insert_iff, exists_eq_or_imp, Block.defs, List.mem_append,
    List.mem_filterMap]
  exact or_right_comm

theorem checksIn_insert {blocks : Set BlockId} {v : VarId} {length : Nat} :
  f.ChecksIn (insert id blocks) v length
    ↔ f.ChecksIn blocks v length ∨ .boundsCheck v length ∈ (f.block id).instrs
  := by
  simp only [ChecksIn, Set.mem_insert_iff, exists_eq_or_imp]
  exact or_comm

/-- A new variable, which is not defined yet. -/
theorem Built.addVar (h : f.Built typed passed) (type : ValueType) :
  (f.freshVar type).2.Built typed passed
  := by
  have hwidens : f.Widens (f.freshVar type).2 :=
    ⟨rfl, List.prefix_append _ _, List.prefix_refl _, le_rfl, fun _ _ => id, fun _ _ => id⟩
  refine ⟨h.entry, h.params, h.first, h.nodup, fun id v hv => ?_, fun id => ?_, h.loops⟩
  · exact (h.bounded id v hv).trans_le hwidens.varTypes.length_le
  · exact (h.block id).widen hwidens rfl rfl (fun _ _ => rfl) fun _ _ => rfl

/-- A new slot. -/
theorem Built.addSlot (h : f.Built typed passed) (slot : Slot) :
  { f with slots := f.slots ++ [slot] }.Built typed passed
  := by
  have hwidens : f.Widens { f with slots := f.slots ++ [slot] } :=
    ⟨rfl, List.prefix_refl _, List.prefix_append _ _, le_rfl, fun _ _ => id, fun _ _ => id⟩
  refine ⟨h.entry, h.params, h.first, h.nodup, h.bounded, fun id => ?_, h.loops⟩
  exact (h.block id).widen hwidens rfl rfl (fun _ _ => rfl) fun _ _ => rfl

/-- The record of a loop. -/
theorem Built.addLoop (h : f.Built typed passed) {l : LoopInfo}
    (hl : ∀ b ∈ l.preheader :: l.header :: l.latch :: l.exit :: l.blocks, b < f.blocks.length) :
  { f with loops := f.loops ++ [l] }.Built typed passed
  := by
  have hwidens : f.Widens { f with loops := f.loops ++ [l] } :=
    ⟨rfl, List.prefix_refl _, List.prefix_refl _, le_rfl, fun _ _ => id, fun _ _ => id⟩
  refine ⟨h.entry, h.params, h.first, h.nodup, h.bounded, fun id => ?_, fun l' hl' => ?_⟩
  · exact (h.block id).widen hwidens rfl rfl (fun _ _ => rfl) fun _ _ => rfl
  · rcases List.mem_append.mp hl' with hl' | hl'
    · exact h.loops l' hl'
    · obtain rfl : l' = l := by simpa using hl'
      exact hl

theorem builtBlock_of_empty (hempty : f.block id = .empty) :
  f.BuiltBlock typed passed id
  := by
  constructor <;> simp only [successors, hempty]
  · simp [Block.empty, Block.instrs, Terminator.uses, Scoped]
  · trivial
  · simp [Block.empty, Block.instrs]
  · simp [Block.empty, Terminator.successors]
  · simp [Block.empty]
  · simp [Block.empty]
  · exact fun _ => rfl

theorem block_addBlock (f : Function) (id : BlockId) :
  { f with blocks := f.blocks ++ [Block.empty] }.block id = f.block id
  := by
  simp only [Function.block, List.getD_eq_getElem?_getD, List.getElem?_append]
  split
  · rfl
  · rename_i hlt
    rw [List.getElem?_eq_none (by omega : f.blocks.length ≤ id)]
    cases id - f.blocks.length <;> simp

variable (h : f.Built typed passed)

include h

/-- A new block; nothing goes there yet, so that any blocks may be said to be passed on the way. -/
theorem Built.addBlock (before : Set BlockId) :
  { f with blocks := f.blocks ++ [Block.empty] }.Built typed
    (Function.update passed f.blocks.length before)
  := by
  have hwidens : f.Widens { f with blocks := f.blocks ++ [Block.empty] } :=
    ⟨rfl, List.prefix_refl _, List.prefix_refl _, by simp, fun id v hv => by rwa [block_addBlock],
      fun id i hi => by rwa [block_addBlock]⟩
  have hpassed : ∀ {id}, id < f.blocks.length →
      Function.update passed f.blocks.length before id = passed id :=
    fun hid => Function.update_of_ne hid.ne _ _
  have hlength : ∀ {id}, id < f.blocks.length → id < (f.blocks ++ [Block.empty]).length := by
    intro id hid
    simp only [List.length_append]
    omega
  refine ⟨hlength h.entry, ?_, ?_, ?_, fun id v hv => ?_, fun id => ?_, fun l hl b hb => ?_⟩
  · rw [block_addBlock]
    exact h.params
  · exact (hpassed h.entry).trans h.first
  · simpa [Block.defs, Block.empty, Block.instrs] using h.nodup
  · rw [block_addBlock] at hv
    exact h.bounded id v hv
  · by_cases hid : id < f.blocks.length
    · refine (h.block id).widen hwidens (block_addBlock f id) (hpassed hid) (fun next hnext => ?_) ?_
      · exact hpassed ((h.block id).targets next hnext).1
      · exact fun next _ => by rw [block_addBlock]
    · have hempty : { f with blocks := f.blocks ++ [Block.empty] }.block id = .empty := by
        rw [block_addBlock]
        simp [Function.block, List.getElem?_eq_none (Nat.le_of_not_lt hid)]
      exact builtBlock_of_empty hempty
  · exact hlength (h.loops l hl b hb)

/-- A block with one more instruction. -/
theorem Built.append (hid : id < f.blocks.length) (line : Line)
    (huses : ∀ v ∈ line.instr.uses, f.DefinesIn (insert id (passed id)) v)
    (hdef : ∀ v, line.instr.def? = some v → v < f.varTypes.length ∧ ∀ d, v ∉ (f.block d).defs)
    (haccess : ∀ slot index, line.instr.access? = some (slot, index) → f.IsArray slot
      ∧ ∀ element length, f.slotType slot = .array element length →
        f.IsInRange index length ∨ f.ChecksIn (insert id (passed id)) index length)
    (hright : typed → Verify.instr f line.instr = .ok ()) :
  (f.modifyBlock id fun b => { b with body := b.body ++ [line] }).Built typed passed
    ∧ f.Widens (f.modifyBlock id fun b => { b with body := b.body ++ [line] })
  := by
  set g := f.modifyBlock id fun b => { b with body := b.body ++ [line] } with hg
  have hblock : ∀ d, g.block d =
      if d = id then { f.block d with body := (f.block d).body ++ [line] } else f.block d :=
    block_modifyBlock hid _
  have hlength : g.blocks.length = f.blocks.length := by simp [hg, modifyBlock]
  have hparams : ∀ d, (g.block d).params = (f.block d).params := by
    intro d
    rw [hblock]
    split <;> rfl
  have hsuccessors : ∀ d, g.successors d = f.successors d := by
    intro d
    rw [successors, successors, hblock]
    split <;> rfl
  have hself : g.block id = { f.block id with body := (f.block id).body ++ [line] } := by
    rw [hblock, if_pos rfl]
  have hinstrs : (g.block id).instrs = (f.block id).instrs ++ [line.instr] := by
    rw [hself]
    simp [Block.instrs]
  have hwidens : f.Widens g := by
    refine ⟨rfl, List.prefix_refl _, List.prefix_refl _, hlength.ge, fun d v hv => ?_, fun d i hi => ?_⟩
    · rwa [hparams]
    · rcases eq_or_ne d id with rfl | hne
      · rw [hinstrs]
        exact List.mem_append_left _ hi
      · rwa [hblock, if_neg hne]
  have hdefs : (g.block id).defs = (f.block id).defs ++ line.instr.def?.toList := by
    rw [Block.defs, Block.defs, hinstrs, hparams, List.filterMap_append, List.append_assoc]
    cases hd : line.instr.def? <;> simp [hd]
  have hother : ∀ d, d ≠ id → g.block d = f.block d := fun d hne => by rw [hblock, if_neg hne]
  refine ⟨⟨hlength ▸ h.entry, (hparams _).trans h.params, h.first, ?_, fun d v hv => ?_, fun d => ?_,
    fun l hl b hb => hlength ▸ h.loops l hl b hb⟩, hwidens⟩
  · rw [nodup_defs_iff_blocks]
    obtain ⟨hnodup, hunique⟩ := nodup_defs_iff_blocks.mp h.nodup
    have hnew : ∀ {d v}, v ∈ (g.block d).defs → v ∈ (f.block d).defs
        ∨ (d = id ∧ line.instr.def? = some v) := by
      intro d v hv
      rcases eq_or_ne d id with rfl | hne
      · rw [hdefs] at hv
        exact (List.mem_append.mp hv).imp_right fun hv => ⟨rfl, by simpa using hv⟩
      · exact .inl (hother d hne ▸ hv)
    constructor
    · intro d
      rcases eq_or_ne d id with rfl | hne
      · rw [hdefs]
        refine List.nodup_append.mpr ⟨hnodup d, ?_, ?_⟩
        · cases line.instr.def? <;> simp
        · rintro v hv _ hv' rfl
          exact (hdef v (by simpa using hv')).2 d hv
      · rw [hother d hne]
        exact hnodup d
    · intro d d' v hv hv'
      rcases hnew hv with hold | ⟨hd, hold⟩ <;> rcases hnew hv' with hold' | ⟨hd', hold'⟩
      · exact hunique d d' v hold hold'
      · exact absurd hold ((hdef v hold').2 d)
      · exact absurd hold' ((hdef v hold).2 d')
      · exact hd.trans hd'.symm
  · rcases eq_or_ne d id with rfl | hne
    · rw [hdefs] at hv
      rcases List.mem_append.mp hv with hv | hv
      · exact h.bounded d v hv
      · exact (hdef v (by simpa using hv)).1
    · exact h.bounded d v (hother d hne ▸ hv)
  · rcases eq_or_ne d id with rfl | hne
    · have hold := h.block d
      constructor
      · rw [hinstrs, scoped_append, hparams, show (g.block d).terminator = (f.block d).terminator by
          rw [hself]]
        have hreads := hold.reads
        rw [← List.append_nil (f.block d).instrs, scoped_append] at hreads
        obtain ⟨hreads, hlast⟩ := hreads
        have hknown : ∀ v, (v ∈ (f.block d).params ∨ f.DefinesIn (passed d) v) →
            v ∈ (f.block d).params ∨ g.DefinesIn (passed d) v :=
          fun v => Or.imp_right (hwidens.definesIn subset_rfl)
        refine ⟨hreads.mono hknown, fun v hv => ?_, fun v hv => ?_⟩
        · exact (definesIn_insert.mp (huses v hv)).imp_left (hknown v)
        · exact .inl ((hlast v hv).imp_left (hknown v))
      · rw [hinstrs, guarded_append]
        refine ⟨hold.guarded.mono (fun _ _ => hwidens.checksIn subset_rfl)
          (fun _ _ => hwidens.isInRange) ?_, ?_, trivial⟩
        · exact fun i hi slot index hslot => hwidens.slotType (hold.slots i hi slot index hslot).lt
        · intro slot index hi element length hslot
          obtain ⟨harray, hguard⟩ := haccess slot index hi
          rw [hwidens.slotType harray.lt] at hslot
          refine (hguard element length hslot).imp hwidens.isInRange fun hchecks => ?_
          exact (checksIn_insert.mp hchecks).imp_left (hwidens.checksIn subset_rfl)
      · rw [hinstrs]
        intro i hi slot index hslot
        rcases List.mem_append.mp hi with hi | hi
        · exact hold.slots i hi slot index hslot
        · obtain rfl : i = line.instr := by simpa using hi
          exact (haccess slot index hslot).1
      · rw [hsuccessors, hlength]
        exact hold.targets
      · rw [hself]
        intro target args hterminator
        rw [hparams]
        exact hold.jump target args hterminator
      · rw [hself]
        intro test thenBlock elseBlock hterminator next hnext
        rw [hparams]
        exact hold.branch test thenBlock elseBlock hterminator next hnext
      · intro htyped
        obtain ⟨hall, hlast⟩ := check_bind_eq_ok.mp (hold.right htyped)
        refine check_bind_eq_ok.mpr ⟨?_, ?_⟩
        · rw [hinstrs]
          refine forM_eq_ok.mpr fun i hi => hwidens.keeps_instr i () ?_
          rcases List.mem_append.mp hi with hi | hi
          · exact forM_eq_ok.mp hall i hi
          · obtain rfl : i = line.instr := by simpa using hi
            exact hright htyped
        · rw [hself]
          exact hwidens.keeps_terminator (fun next _ => hparams next) () hlast
    · exact (h.block d).widen hwidens (hother d hne) rfl (fun _ _ => rfl) fun next _ => hparams next

/-- A block that is left in another way. -/
theorem Built.terminate (hid : id < f.blocks.length) {t : Terminator}
    (huses : ∀ v ∈ t.uses, f.DefinesIn (insert id (passed id)) v)
    (htargets : ∀ next ∈ t.successors, next < f.blocks.length ∧ passed next ⊆ insert id (passed id))
    (hjump : ∀ target args, t = .jump target args → (f.block target).params.length = args.length)
    (hbranch : ∀ test thenBlock elseBlock, t = .branch test thenBlock elseBlock →
      ∀ next ∈ [thenBlock, elseBlock], (f.block next).params = [])
    (hright : typed → Verify.terminator f t = .ok ()) :
  (f.modifyBlock id fun b => { b with terminator := t }).Built typed passed
    ∧ f.Widens (f.modifyBlock id fun b => { b with terminator := t })
  := by
  set g := f.modifyBlock id fun b => { b with terminator := t } with hg
  have hblock : ∀ d, g.block d = if d = id then { f.block d with terminator := t } else f.block d :=
    block_modifyBlock hid _
  have hlength : g.blocks.length = f.blocks.length := by simp [hg, modifyBlock]
  have hparams : ∀ d, (g.block d).params = (f.block d).params := by
    intro d
    rw [hblock]
    split <;> rfl
  have hinstrs : ∀ d, (g.block d).instrs = (f.block d).instrs := by
    intro d
    rw [hblock]
    split <;> rfl
  have hdefs : ∀ d, (g.block d).defs = (f.block d).defs := by
    intro d
    rw [Block.defs, Block.defs, hparams, hinstrs]
  have hwidens : f.Widens g :=
    ⟨rfl, List.prefix_refl _, List.prefix_refl _, hlength.ge, fun d v hv => by rwa [hparams],
      fun d i hi => by rwa [hinstrs]⟩
  have hself : (g.block id).terminator = t := by rw [hblock, if_pos rfl]
  refine ⟨⟨hlength ▸ h.entry, (hparams _).trans h.params, h.first, ?_, fun d v hv => ?_, fun d => ?_,
    fun l hl b hb => hlength ▸ h.loops l hl b hb⟩, hwidens⟩
  · rw [nodup_defs_iff_blocks]
    simpa only [hdefs] using nodup_defs_iff_blocks.mp h.nodup
  · exact h.bounded d v (hdefs d ▸ hv)
  · rcases eq_or_ne d id with rfl | hne
    · have hold := h.block d
      constructor
      · rw [hinstrs, hparams, hself, ← List.append_nil (f.block d).instrs, scoped_append]
        have hreads := hold.reads
        rw [← List.append_nil (f.block d).instrs, scoped_append] at hreads
        have hknown : ∀ v, (v ∈ (f.block d).params ∨ f.DefinesIn (passed d) v) →
            v ∈ (f.block d).params ∨ g.DefinesIn (passed d) v :=
          fun v => Or.imp_right (hwidens.definesIn subset_rfl)
        refine ⟨hreads.1.mono hknown, fun v hv => ?_⟩
        exact (definesIn_insert.mp (huses v hv)).imp_left (hknown v)
      · rw [hinstrs]
        refine hold.guarded.mono (fun _ _ => hwidens.checksIn subset_rfl)
          (fun _ _ => hwidens.isInRange) fun i hi slot index hslot => ?_
        exact hwidens.slotType (hold.slots i hi slot index hslot).lt
      · rw [hinstrs]
        exact hold.slots
      · rw [successors, hself, hlength]
        exact htargets
      · rw [hself]
        intro target args hterminator
        rw [hparams]
        exact hjump target args hterminator
      · rw [hself]
        intro test thenBlock elseBlock hterminator next hnext
        rw [hparams]
        exact hbranch test thenBlock elseBlock hterminator next hnext
      · intro htyped
        obtain ⟨hall, -⟩ := check_bind_eq_ok.mp (hold.right htyped)
        refine check_bind_eq_ok.mpr ⟨?_, ?_⟩
        · rw [hinstrs]
          exact Keeps.forM (fun i => hwidens.keeps_instr i) () hall
        · rw [hself]
          exact hwidens.keeps_terminator (fun next _ => hparams next) () (hright htyped)
    · have hother : g.block d = f.block d := by rw [hblock, if_neg hne]
      exact (h.block d).widen hwidens hother rfl (fun _ _ => rfl) fun next _ => hparams next

/-- A block with one more parameter, to which nothing goes yet. -/
theorem Built.addParam (hid : id < f.blocks.length) {v : VarId}
    (hv : v < f.varTypes.length ∧ ∀ d, v ∉ (f.block d).defs) (hnone : ∀ d, id ∉ f.successors d) {params : List VarId}
    (hparams : params = if id = f.entry then f.params ++ [v] else f.params) :
  { f.modifyBlock id fun b => { b with params := b.params ++ [v] } with params := params }.Built
      typed passed
    ∧ f.Widens { f.modifyBlock id fun b => { b with params := b.params ++ [v] } with params := params }
  := by
  set g : Function :=
    { f.modifyBlock id fun b => { b with params := b.params ++ [v] } with params := params } with hg
  have hblock : ∀ d, g.block d =
      if d = id then { f.block d with params := (f.block d).params ++ [v] } else f.block d :=
    block_modifyBlock hid _
  have hlength : g.blocks.length = f.blocks.length := by simp [hg, modifyBlock]
  have hsuccessors : ∀ d, g.successors d = f.successors d := by
    intro d
    rw [successors, successors, hblock]
    split <;> rfl
  have hself : g.block id = { f.block id with params := (f.block id).params ++ [v] } := by
    rw [hblock, if_pos rfl]
  have hother : ∀ d, d ≠ id → g.block d = f.block d := fun d hne => by rw [hblock, if_neg hne]
  have hinstrs : ∀ d, (g.block d).instrs = (f.block d).instrs := by
    intro d
    rw [hblock]
    split <;> rfl
  have hkept : ∀ d, ∀ next ∈ f.successors d, (g.block next).params = (f.block next).params := by
    intro d next hnext
    rw [hother next]
    rintro rfl
    exact hnone d hnext
  have hwidens : f.Widens g := by
    refine ⟨rfl, List.prefix_refl _, List.prefix_refl _, hlength.ge, fun d w hw => ?_, fun d i hi => ?_⟩
    · rcases eq_or_ne d id with rfl | hne
      · rw [hself]
        exact List.mem_append_left _ hw
      · rwa [hother d hne]
    · rwa [hinstrs]
  have hdefs : (g.block id).defs
      = (f.block id).params ++ v :: (f.block id).instrs.filterMap Instr.def? := by
    rw [Block.defs, hinstrs, hself, List.append_assoc, List.singleton_append]
  have hmem : ∀ {d w}, w ∈ (g.block d).defs → w ∈ (f.block d).defs ∨ (d = id ∧ w = v) := by
    intro d w hw
    rcases eq_or_ne d id with rfl | hne
    · rw [hdefs, List.mem_append, List.mem_cons] at hw
      rw [Block.defs, List.mem_append]
      tauto
    · exact .inl (hother d hne ▸ hw)
  refine ⟨⟨hlength ▸ h.entry, ?_, h.first, ?_, fun d w hw => ?_, fun d => ?_,
    fun l hl b hb => hlength ▸ h.loops l hl b hb⟩, hwidens⟩
  · change (g.block f.entry).params = params
    rw [hparams]
    split
    · next heq => rw [← heq, hself, ← h.params, heq]
    · next hne => rw [hother _ (Ne.symm hne), h.params]
  · obtain ⟨hnodup, hunique⟩ := nodup_defs_iff_blocks.mp h.nodup
    rw [nodup_defs_iff_blocks]
    constructor
    · intro d
      rcases eq_or_ne d id with rfl | hne
      · rw [hdefs, List.nodup_middle]
        exact List.nodup_cons.mpr ⟨hv.2 d, hnodup d⟩
      · rw [hother d hne]
        exact hnodup d
    · intro d d' w hw hw'
      rcases hmem hw with hold | ⟨hd, heq⟩ <;> rcases hmem hw' with hold' | ⟨hd', heq'⟩
      · exact hunique d d' w hold hold'
      · exact absurd (heq' ▸ hold) (hv.2 d)
      · exact absurd (heq ▸ hold') (hv.2 d')
      · exact hd.trans hd'.symm
  · rcases hmem hw with hw | ⟨rfl, rfl⟩
    · exact h.bounded d w hw
    · exact hv.1
  · rcases eq_or_ne d id with rfl | hne
    · have hold := h.block d
      have hterminator : (g.block d).terminator = (f.block d).terminator := by rw [hself]
      constructor
      · rw [hinstrs, hterminator]
        refine hold.reads.mono fun w => Or.imp (hwidens.params d w) (hwidens.definesIn subset_rfl)
      · rw [hinstrs]
        refine hold.guarded.mono (fun _ _ => hwidens.checksIn subset_rfl)
          (fun _ _ => hwidens.isInRange) fun i hi slot index hslot => ?_
        exact hwidens.slotType (hold.slots i hi slot index hslot).lt
      · rw [hinstrs]
        exact hold.slots
      · rw [hsuccessors, hlength]
        exact hold.targets
      · rw [hterminator]
        intro target args heq
        rw [hkept d target (by simp [successors, heq, Terminator.successors])]
        exact hold.jump target args heq
      · rw [hterminator]
        intro test thenBlock elseBlock heq next hnext
        rw [hkept d next (by simpa [successors, heq, Terminator.successors] using hnext)]
        exact hold.branch test thenBlock elseBlock heq next hnext
      · intro htyped
        obtain ⟨hall, hlast⟩ := check_bind_eq_ok.mp (hold.right htyped)
        refine check_bind_eq_ok.mpr ⟨?_, ?_⟩
        · rw [hinstrs]
          exact Keeps.forM (fun i => hwidens.keeps_instr i) () hall
        · rw [hterminator]
          exact hwidens.keeps_terminator (hkept d) () hlast
    · exact (h.block d).widen hwidens (hother d hne) rfl (fun _ _ => rfl) (hkept d)

end

end Function

end FormCompiler.Flow
