import FormCompiler.Proofs.Lowering.Actions

/-!
# Blocks of lowering

How lowering goes from block to block. A block is made before anything jumps to it, together with what
control will have passed on the way to it, and it `Waits` until it is entered. The end of the current
block may go to blocks that have been made and to the targets of the loop around. Conditionals and
loops are made of these steps.
-/

namespace FormCompiler

open FormCompiler.Flow

namespace Lower

open LowerState

section

variable {c : LowerContext} {result : Ty} {scope : TypeScope} {passed passed' passed₀ : Passed}
  {s s₀ s' : LowerState} {id : BlockId} {before : Set BlockId} {params : List VarId}
variable {scope' scope₀ : TypeScope}

/-! ## Blocks that are made -/

/-- A state on the way from another one, while a form with blocks of its own is made. -/
structure Stage (c : LowerContext) (result : Ty) (passed₀ : Passed) (s₀ : LowerState)
    (passed : Passed) (s : LowerState) : Prop where
  grown : s₀.Grown passed₀ passed s
  sound : s.Sound c result passed

theorem Stage.start (h : s.Sound c result passed) :
  Stage c result passed s passed s
  := ⟨h.grown, h⟩

theorem Stage.reached (h : Stage c result passed₀ s₀ passed s)
    (h' : Reached c result scope passed s passed' s') :
  Stage c result passed₀ s₀ passed' s'
  := ⟨h.grown.trans h'.grown, h'.sound⟩

/-- A block that has been made and will be filled later. -/
structure Waits (passed : Passed) (s : LowerState) (id : BlockId) (before : Set BlockId)
    (params : List VarId) : Prop where
  lt : id < s.function.blocks.length
  idle : ¬s.Writes id
  block : s.function.block id = ⟨params, [], .unreachable⟩
  passed : passed id = before

theorem Waits.grown (h : Waits passed s id before params) (h' : s.Grown passed passed' s') :
  Waits passed' s' id before params
  := by
  refine ⟨h.lt.trans_le h'.widens.length, fun hwrites => h.idle (h'.writes id h.lt hwrites), ?_, ?_⟩
  · rw [h'.others id h.lt h.idle, h.block]
  · rw [h'.passed id h.lt, h.passed]

/-- What making a block does, from where control can be; nothing goes to the block yet. -/
structure Fresh (c : LowerContext) (result : Ty) (scope : TypeScope) (before : Set BlockId)
    (passed : Passed) (s : LowerState) (passed' : Passed) (s' : LowerState) (id : BlockId) : Prop
    extends Reached c result scope passed s passed' s' where
  waits : Waits passed' s' id before []
  id_eq : id = s.function.blocks.length
  unused : ∀ d, id ∉ s'.function.successors d
  state : s' = { s with function := s'.function }

theorem Fresh.live (h : Fresh c result scope before passed s passed' s' id)
    (hlive : s.Live c result passed scope) :
  s'.Live c result passed' scope
  := hlive.after h.toReached (by rw [h.state, hlive.isOpen])

theorem Fresh.frames (h : Fresh c result scope before passed s passed' s' id) :
  s'.frames = s.frames
  := by rw [h.state]

/-- A new block, with the blocks that will be passed on the way to it. -/
theorem ensures_freshBlock (h : s.Live c result passed scope) (before : Set BlockId) :
  Ensures c s freshBlock fun id s' => ∃ passed', Fresh c result scope before passed s passed' s' id
  := by
  rintro _ _ ⟨⟩
  have hblock := Function.block_addBlock s.function
  have hpassed : ∀ id < s.function.blocks.length,
      Function.update passed s.function.blocks.length before id = passed id :=
    fun id hid => Function.update_of_ne hid.ne _ _
  have hwidens : s.function.Widens { s.function with blocks := s.function.blocks ++ [Block.empty] } :=
    ⟨rfl, List.prefix_refl _, List.prefix_refl _, by simp, fun id v hv => (hblock id).symm ▸ hv,
      fun id i hi => (hblock id).symm ▸ hi⟩
  have hgrown := h.sound.grown
  refine ⟨Function.update passed s.function.blocks.length before, ⟨⟨?_, ?_, ?_, ?_⟩, ⟨?_, ?_, ?_, ?_⟩,
    rfl, fun d hd => ?_, rfl⟩⟩
  · refine ⟨hwidens, rfl, rfl, List.prefix_refl _, fun id _ _ => hblock id, fun id _ => ?_,
      fun _ _ => id, fun id hid next hnext => ?_, hpassed, rfl, rfl, rfl⟩
    · exact congrArg Block.params (hblock id)
    · rw [Function.successors, hblock] at hnext
      exact hgrown.targets id hid next hnext
  · refine ⟨h.sound.built.addBlock before, ?_, fun hopen => ?_, h.sound.result, ?_⟩
    · exact h.sound.current.trans_le hwidens.length
    · exact (congrArg Block.terminator (hblock s.current)).trans (h.sound.unfinished hopen)
    · exact fun frame hframe => (h.sound.frames frame hframe).mono hwidens
  · intro _
    rw [LowerState.here, LowerState.here, hpassed _ h.sound.current]
  · exact fun _ => h.binds
  · simp
  · rintro ⟨-, hcurrent⟩
    exact h.sound.current.ne hcurrent.symm
  · refine (hblock _).trans ?_
    simp [Function.block, Block.empty]
  · exact Function.update_self ..
  · rw [Function.successors, hblock] at hd
    exact lt_irrefl _ ((h.sound.built.block d).targets _ hd).1

/-- The current block is left, if control was in it. -/
structure Ended (s s' : LowerState) : Prop where
  state : s' = { s with function := s'.function, isOpen := false }
  widens : s.function.Widens s'.function
  length : s'.function.blocks.length = s.function.blocks.length
  params : ∀ id, (s'.function.block id).params = (s.function.block id).params
  others : ∀ id, ¬s.Writes id → s'.function.block id = s.function.block id

theorem Ended.refl (h : s.isOpen = false) :
  Ended s s
  := ⟨by rw [← h], .refl _, rfl, fun _ => rfl, fun _ _ => rfl⟩

theorem Ended.isOpen (h : Ended s s') :
  s'.isOpen = false
  := by rw [h.state]

theorem Ended.frames (h : Ended s s') :
  s'.frames = s.frames
  := by rw [h.state]

/-- The current block is left. -/
theorem ensures_terminate (h : Stage c result passed₀ s₀ passed s) (hopen : s.isOpen = true)
    {t : Terminator} (huses : ∀ v ∈ t.uses, s.function.DefinesIn (s.here passed) v)
    (htargets : ∀ next ∈ t.successors, next < s.function.blocks.length ∧ passed next ⊆ s.here passed
      ∧ (s₀.function.blocks.length ≤ next ∨ s₀.IsTarget next))
    (hjump : ∀ target args, t = .jump target args →
      (s.function.block target).params.length = args.length)
    (hbranch : ∀ test thenBlock elseBlock, t = .branch test thenBlock elseBlock →
      ∀ next ∈ [thenBlock, elseBlock], (s.function.block next).params = [])
    (hright : c.bindings.BindsIntegers → Verify.terminator s.function t = .ok ()) :
  Ensures c s (terminate t) fun _ s' => Stage c result passed₀ s₀ passed s' ∧ Ended s s'
  := by
  rintro _ _ ⟨⟩
  obtain ⟨hbuilt, hwidens⟩ := h.sound.built.terminate h.sound.current huses
    (fun next hnext => ⟨(htargets next hnext).1, (htargets next hnext).2.1⟩) hjump hbranch hright
  have hblock := Function.block_modifyBlock h.sound.current
    fun b : Block => { b with terminator := t }
  have hlength : (s.function.modifyBlock s.current fun b => { b with terminator := t }).blocks.length
      = s.function.blocks.length := by simp [Function.modifyBlock]
  have hparams : ∀ id, ((s.function.modifyBlock s.current fun b => { b with terminator := t }).block id).params
      = (s.function.block id).params := by
    intro id
    rw [hblock]
    split <;> rfl
  have hother : ∀ id, id ≠ s.current →
      (s.function.modifyBlock s.current fun b => { b with terminator := t }).block id
        = s.function.block id := fun id hne => by rw [hblock, if_neg hne]
  have hgrown := h.grown
  refine ⟨⟨?_, ?_⟩, rfl, hwidens, hlength, hparams, fun id hnot => hother id fun heq => hnot ⟨hopen, heq⟩⟩
  · refine ⟨hgrown.widens.trans hwidens, hgrown.entry, hgrown.params, hgrown.loops, fun id hid hnot => ?_,
      fun id hid => ?_, fun id _ hwrites => ?_, fun id hid next hnext => ?_, hgrown.passed, hgrown.loop,
      hgrown.tail, hgrown.depth⟩
    · refine (hother id ?_).trans (hgrown.others id hid hnot)
      exact fun heq => hnot (hgrown.writes id hid ⟨hopen, heq⟩)
    · exact (hparams id).trans (hgrown.kept id hid)
    · exact absurd hwrites.1 (by simp)
    · rcases eq_or_ne id s.current with rfl | hne
      · rw [Function.successors] at hnext
        exact (htargets next (by simpa [modifyFunction, hblock] using hnext)).2.2
      · refine hgrown.targets id hid next ?_
        rw [Function.successors] at hnext ⊢
        rwa [show _ = _ from hother id hne] at hnext
  · refine ⟨hbuilt, ?_, by simp, h.sound.result.trans (by rw [← hwidens.result]), ?_⟩
    · exact hlength.symm ▸ h.sound.current
    · exact fun frame hframe => (h.sound.frames frame hframe).mono hwidens

/-- What waits still does so after the current block has been left. -/
theorem Waits.ended (h : Waits passed s id before params) (h' : Ended s s') :
  Waits passed s' id before params
  := by
  refine ⟨h'.length ▸ h.lt, fun hwrites => ?_, ?_, h.passed⟩
  · exact absurd hwrites.1 (by simp [h'.isOpen])
  · rw [h'.others id h.idle, h.block]

/-- Control goes on in a block that has waited. -/
theorem Stage.enter (h : Stage c result passed₀ s₀ passed s) (hid : s₀.function.blocks.length ≤ id)
    (hwaits : Waits passed s id before params) :
  Stage c result passed₀ s₀ passed { s with current := id, isOpen := true }
  := by
  have hgrown := h.grown
  refine ⟨⟨hgrown.widens, hgrown.entry, hgrown.params, hgrown.loops, hgrown.others, hgrown.kept,
    fun id' hid' hwrites => ?_, hgrown.targets, hgrown.passed, hgrown.loop, hgrown.tail, hgrown.depth⟩,
    ⟨h.sound.built, hwaits.lt, fun _ => by rw [hwaits.block], h.sound.result, h.sound.frames⟩⟩
  obtain ⟨-, rfl⟩ := hwrites
  exact absurd hid' (Nat.not_lt_of_le hid)

/-- Control goes on in a block that has waited, which it comes to from where it was. -/
theorem Live.enter (h₀ : s₀.Live c result passed₀ scope) (h : Stage c result passed₀ s₀ passed s)
    (hid : s₀.function.blocks.length ≤ id) (hwaits : Waits passed s id before params)
    (hbefore : s₀.here passed₀ ⊆ before) (hbinds : s.Binds c scope') :
  { s with current := id, isOpen := true }.Live c result passed scope'
  := by
  have hgrown := h.grown
  refine ⟨(h.enter hid hwaits).sound, rfl, hbinds, fun target htarget => ?_⟩
  rw [IsTarget, show _ = _ from hgrown.loop] at htarget
  obtain ⟨hlt, hparams, hpassed⟩ := h₀.loop target htarget
  refine ⟨hlt.trans_le hgrown.widens.length, (hgrown.kept target hlt).trans hparams, ?_⟩
  rw [hgrown.passed target hlt]
  refine hpassed.trans (hbefore.trans ?_)
  rw [← hwaits.passed]
  exact Set.subset_insert _ _

theorem Waits.entered {id' : BlockId} (h : Waits passed s id before params) (hne : id ≠ id') :
  Waits passed { s with current := id', isOpen := true } id before params
  := ⟨h.lt, fun hwrites => hne hwrites.2, h.block, h.passed⟩

/-- A new parameter of a block that waits and that nothing goes to yet. -/
theorem ensures_blockParam (h₀ : s₀.Sound c result passed₀) (h : Stage c result passed₀ s₀ passed s)
    (hid : s₀.function.blocks.length ≤ id) (hwaits : Waits passed s id before params)
    (hnone : ∀ d, id ∉ s.function.successors d) (type : ValueType) :
  Ensures c s (blockParam id type) fun v s' => Stage c result passed₀ s₀ passed s'
    ∧ Waits passed s' id before (params ++ [v]) ∧ s'.function.varTypes[v]? = some type
    ∧ s.function.Widens s'.function ∧ s' = { s with function := s'.function }
    ∧ (∀ d, d ≠ id → s'.function.block d = s.function.block d)
    ∧ s'.function.blocks.length = s.function.blocks.length
  := by
  rintro _ _ ⟨⟩
  -- the variable comes first, then the parameter
  set f₁ := (s.function.freshVar type).2 with hf₁
  have hwidens₁ : s.function.Widens f₁ :=
    ⟨rfl, List.prefix_append _ _, List.prefix_refl _, le_rfl, fun _ _ hv => hv, fun _ _ hi => hi⟩
  have hv : f₁.varTypes[s.function.varTypes.length]? = some type := List.getElem?_concat_length
  have hentry : id ≠ f₁.entry := by
    rintro rfl
    change s₀.function.blocks.length ≤ s.function.entry at hid
    rw [h.grown.entry] at hid
    exact absurd h₀.built.entry (Nat.not_lt_of_le hid)
  obtain ⟨hbuilt, hwidens₂⟩ := (h.sound.built.addVar type).addParam hwaits.lt
    ⟨(List.getElem?_eq_some_iff.mp hv).1, fun d hd => lt_irrefl _ (h.sound.built.bounded d _ hd)⟩
    hnone (if_neg hentry).symm
  have hblock := Function.block_modifyBlock (f := f₁) hwaits.lt
    fun b : Block => { b with params := b.params ++ [s.function.varTypes.length] }
  have hother : ∀ d, d ≠ id → (f₁.modifyBlock id fun b =>
      { b with params := b.params ++ [s.function.varTypes.length] }).block d = s.function.block d :=
    fun d hne => (hblock d).trans (if_neg hne)
  have hself := (hblock id).trans (if_pos rfl)
  have hlength : (f₁.modifyBlock id fun b =>
      { b with params := b.params ++ [s.function.varTypes.length] }).blocks.length
        = s.function.blocks.length := by simp [Function.modifyBlock, hf₁, Function.freshVar]
  have hsuccessors : ∀ d, (f₁.modifyBlock id fun b =>
      { b with params := b.params ++ [s.function.varTypes.length] }).successors d
        = s.function.successors d := by
    intro d
    rw [Function.successors, Function.successors, hblock]
    split <;> rfl
  have hwidens := hwidens₁.trans hwidens₂
  have hgrown := h.grown
  refine ⟨⟨⟨hgrown.widens.trans hwidens, hgrown.entry, hgrown.params, hgrown.loops,
    fun d hd hnot => ?_, fun d hd => ?_, hgrown.writes, fun d hd next hnext => ?_, hgrown.passed,
    hgrown.loop, hgrown.tail, hgrown.depth⟩, hbuilt, ?_, fun hopen => ?_, h.sound.result, ?_⟩,
    ⟨hlength.symm ▸ hwaits.lt, hwaits.idle, ?_, hwaits.passed⟩, hwidens₂.getElem?_varTypes hv, hwidens,
    rfl, hother, hlength⟩
  · exact (hother d (hd.trans_le hid).ne).trans (hgrown.others d hd hnot)
  · exact (congrArg Block.params (hother d (hd.trans_le hid).ne)).trans (hgrown.kept d hd)
  · exact hgrown.targets d hd next (hsuccessors d ▸ hnext)
  · exact hlength.symm ▸ h.sound.current
  · refine (congrArg Block.terminator (hother s.current ?_)).trans (h.sound.unfinished hopen)
    exact fun heq => hwaits.idle ⟨hopen, heq.symm⟩
  · exact fun frame hframe => (h.sound.frames frame hframe).mono hwidens
  · have hold : f₁.block id = ⟨params, [], .unreachable⟩ := hwaits.block
    refine hself.trans ?_
    rw [hold]

/-- Control goes on in a block that has waited, if it comes there at all. -/
theorem ensures_continueAt (h : Stage c result passed₀ s₀ passed s) (hid : s₀.function.blocks.length ≤ id)
    (hwaits : Waits passed s id before params) (hbefore : s₀.here passed₀ ⊆ before) (hbinds : s.Binds c scope') :
  Ensures c s (continueAt id) fun _ s' => Reached c result scope' passed₀ s₀ passed s'
    ∧ (∀ v ∈ params, s'.function.DefinesIn (s'.here passed) v)
    ∧ s.function.Widens s'.function
    ∧ ((∀ d, id ∉ s.function.successors d) → s'.isOpen = false)
  := by
  have hstage := h.enter hid hwaits
  set s₁ : LowerState := { s with current := id, isOpen := true } with hs₁
  have hhere : s₀.here passed₀ ⊆ insert id (passed id) :=
    hbefore.trans (hwaits.passed ▸ Set.subset_insert _ _)
  have hparams : ∀ v ∈ params, s₁.function.DefinesIn (s₁.here passed) v := by
    intro v hv
    refine ⟨id, Set.mem_insert _ _, List.mem_append_left _ ?_⟩
    rwa [show s₁.function.block id = _ from hwaits.block]
  refine .bind_modify (.bind_get ?_)
  split
  · next hpredecessor =>
    refine .pure ⟨⟨hstage.grown, hstage.sound, fun _ => hhere, fun _ => hbinds⟩, hparams, .refl _,
      fun hnone => ?_⟩
    obtain ⟨b, hb, hnext⟩ := List.any_eq_true.mp hpredecessor
    obtain ⟨d, hd⟩ := List.getElem?_of_mem hb
    have hblock : s.function.block d = b := by
      rw [Function.block, List.getD_eq_getElem?_getD, show s.function.blocks[d]? = some b from hd]
      rfl
    exact absurd (by simpa [Function.successors, hblock] using hnext) (hnone d)
  · refine (ensures_terminate hstage rfl (by simp [Terminator.uses]) (by simp [Terminator.successors])
      (by simp) (by simp) fun _ => rfl).mono fun _ s' h' => ?_
    obtain ⟨hstage', hended⟩ := h'
    have hcurrent : s'.current = id := by rw [hended.state]
    refine ⟨⟨hstage'.grown, hstage'.sound, ?_, ?_⟩, fun v hv => ?_, hended.widens,
      fun _ => hended.isOpen⟩
    · simp [hended.isOpen]
    · simp [hended.isOpen]
    · refine hended.widens.definesIn ?_ (hparams v hv)
      rw [LowerState.here, LowerState.here, hcurrent]

/-! ## Jumps -/

theorem canLeave_exitsTo (h : s.Sound c result passed) (depth : Nat) :
  CanLeave s (s.frames.exitsTo depth)
  := by
  intro slot hslot
  obtain ⟨frame, hframe, hslot⟩ := List.mem_flatMap.mp hslot
  exact (h.frames frame (List.mem_of_mem_take hframe)).exits slot hslot

/-- What is reached where control does not go on. -/
theorem Stage.lost (h : Stage c result passed₀ s₀ passed s) (hclosed : s.isOpen = false)
    (scope : TypeScope) :
  Reached c result scope passed₀ s₀ passed s
  := ⟨h.grown, h.sound, by simp [hclosed], by simp [hclosed]⟩

theorem ensures_jumpInLoop (h : s.Live c result passed scope) (targets : LoopTargets)
    (hid : s.IsTarget id) :
  Ensures c s (jumpInLoop targets id) fun _ s' => Stage c result passed s passed s'
    ∧ s'.isOpen = false
  := by
  refine .bind_get ((ensures_leave h (canLeave_exitsTo h.sound _)).bind fun _ s₁ h₁ => ?_)
  have hlive := h.straight h₁
  have hstage : Stage c result passed s passed s₁ := (Stage.start h.sound).reached h₁.toReached
  have htarget : s₁.IsTarget id := by rwa [IsTarget, h₁.grown.loop]
  obtain ⟨hlt, hparams, hpassed⟩ := hlive.loop id htarget
  refine (ensures_terminate hstage hlive.isOpen (by simp [Terminator.uses]) ?_ ?_ (by simp)
    fun _ => ?_).mono fun _ s₂ h₂ => ?_
  · intro next hnext
    obtain rfl : next = id := by simpa [Terminator.successors] using hnext
    exact ⟨hlt, hpassed, .inr hid⟩
  · rintro target args ⟨⟩
    rw [hparams]
  · exact Verify.jump_eq_ok.mpr ⟨hlt, by rw [hparams], by simp⟩
  · exact ⟨h₂.1, h₂.2.isOpen⟩

theorem ensures_returnValue (h : s.Live c result passed scope) (span : Span) {value : Option VarId}
    (hvalue : ∀ v, value = some v → s.Holds c passed v result) :
  Ensures c s (returnValue span value) fun _ s' => Stage c result passed s passed s'
    ∧ s'.isOpen = false
  := by
  refine .bind_get ((ensures_leave h (canLeave_exitsTo h.sound _)).bind fun _ s₁ h₁ => .bind_get ?_)
  have hlive := h.straight h₁
  have hstage : Stage c result passed s passed s₁ := (Stage.start h.sound).reached h₁.toReached
  have hclosed : ∀ {s₂}, Stage c result passed s passed s₂ ∧ Ended s₁ s₂ →
      Stage c result passed s passed s₂ ∧ s₂.isOpen = false := fun h₂ => ⟨h₂.1, h₂.2.isOpen⟩
  split
  · next hnone =>
    refine (ensures_terminate hstage hlive.isOpen (by simp [Terminator.uses])
      (by simp [Terminator.successors]) (by simp) (by simp) fun _ => ?_).mono fun _ s₂ => hclosed
    exact Verify.ensure_eq_ok.mpr hnone
  · refine .bind_required fun v hv => ?_
    obtain ⟨⟨t, htype, hv⟩, hdefined⟩ := (hvalue v hv).mono h₁.toReached h₁.isOpen
    obtain rfl : t = s₁.function.result :=
      Option.some.inj (htype.symm.trans hlive.sound.result)
    refine (ensures_terminate hstage hlive.isOpen (by simpa [Terminator.uses] using hdefined)
      (by simp [Terminator.successors]) (by simp) (by simp) fun _ => ?_).mono fun _ s₂ => hclosed
    exact Verify.expect_eq_ok.mpr hv

/-- A branch of a conditional ends, if control comes to its end. -/
theorem ensures_joinBranch (h : Stage c result passed₀ s₀ passed s)
    (hid : s₀.function.blocks.length ≤ id) {param value : Option VarId}
    (hwaits : Waits passed s id before param.toList) (hbefore : s.isOpen = true → before ⊆ s.here passed)
    (hvalue : ∀ p v, param = some p → value = some v → s.isOpen = true →
      s.function.DefinesIn (s.here passed) v
        ∧ ∃ t, s.function.varTypes[v]? = some t ∧ s.function.varTypes[p]? = some t) (span : Span) :
  Ensures c s (joinBranch span id param value) fun _ s' => Stage c result passed₀ s₀ passed s'
    ∧ Ended s s'
  := by
  refine .bind_isOpen ?_
  by_cases hopen : s.isOpen = true
  · rw [if_pos hopen]
    -- both kinds of branches end in the same way: by a jump with as many arguments as parameters
    have hend : ∀ args : List VarId, args.length = param.toList.length →
        (∀ v ∈ args, s.function.DefinesIn (s.here passed) v) →
        (∀ pair ∈ args.zip param.toList, ∃ t, s.function.varTypes[pair.1]? = some t
          ∧ s.function.varTypes[pair.2]? = some t) →
        Ensures c s (terminate (.jump id args)) fun _ s' => Stage c result passed₀ s₀ passed s'
          ∧ Ended s s' := by
      intro args hlength hargs htypes
      refine ensures_terminate h hopen (by simpa [Terminator.uses] using hargs) ?_ ?_ (by simp)
        fun _ => ?_
      · intro next hnext
        obtain rfl : next = id := by simpa [Terminator.successors] using hnext
        exact ⟨hwaits.lt, hwaits.passed.symm ▸ hbefore hopen, .inl hid⟩
      · rintro target args' ⟨⟩
        rw [hwaits.block, hlength]
      · refine Verify.jump_eq_ok.mpr ⟨hwaits.lt, by rw [hwaits.block, hlength], ?_⟩
        rw [hwaits.block]
        exact htypes
    cases param with
    | none => exact hend [] rfl (by simp) (by simp)
    | some p =>
      refine .bind_required fun v hv => hend [v] rfl ?_ ?_
      · simpa using (hvalue p v rfl hv hopen).1
      · simpa using (hvalue p v rfl hv hopen).2
  · rw [if_neg hopen]
    have hclosed : s.isOpen = false := by simpa using hopen
    exact .pure ⟨h, .refl hclosed⟩

/-! ## Loops -/

/-- The targets of jumps in a loop are others than outside of it. -/
theorem Grown.leaveLoop {s₁ : LowerState} (h : s₀.Grown passed₀ passed s) {targets : LoopTargets}
    (hs₁ : s₁ = { s with loop := some targets }) (hlatch : s₀.function.blocks.length ≤ targets.latch)
    (hexit : s₀.function.blocks.length ≤ targets.exit) (h' : s₁.Grown passed passed' s') :
  s₀.Grown passed₀ passed' { s' with loop := s.loop }
  := by
  subst hs₁
  have hlength := h.widens.length
  refine ⟨h.widens.trans h'.widens, h'.entry.trans h.entry, h'.params.trans h.params,
    h.loops.trans h'.loops, fun id hid hnot => ?_, fun id hid => ?_, fun id hid hwrites => ?_,
    fun id hid next hnext => ?_, fun id hid => ?_, h.loop, h'.tail.trans h.tail,
    h'.depth.trans h.depth⟩
  · refine (h'.others id (hid.trans_le hlength) ?_).trans (h.others id hid hnot)
    exact fun hwrites => hnot (h.writes id hid hwrites)
  · exact (h'.kept id (hid.trans_le hlength)).trans (h.kept id hid)
  · exact h.writes id hid (h'.writes id (hid.trans_le hlength) hwrites)
  · by_cases hnew : s.Writes id ∨ s.function.blocks.length ≤ id
    · rcases h'.targets id hnew next hnext with hle | ⟨_, ⟨⟩, rfl | rfl⟩
      · exact .inl (hlength.trans hle)
      · exact .inl hlatch
      · exact .inl hexit
    · obtain ⟨hnot, hlt⟩ := not_or.mp hnew
      change next ∈ s'.function.successors id at hnext
      rw [Function.successors, h'.others id (Nat.lt_of_not_le hlt) hnot] at hnext
      exact h.targets id hid next hnext
  · exact (h'.passed id (hid.trans_le hlength)).trans (h.passed id hid)

/-- A jump to a block without parameters that is known. -/
theorem ensures_jump (h : Stage c result passed₀ s₀ passed s) (hopen : s.isOpen = true)
    (hid : s₀.function.blocks.length ≤ id ∧ id < s.function.blocks.length)
    (hparams : (s.function.block id).params = []) (hpassed : passed id ⊆ s.here passed) :
  Ensures c s (terminate (.jump id [])) fun _ s' => Stage c result passed₀ s₀ passed s' ∧ Ended s s'
  := by
  refine ensures_terminate h hopen (by simp [Terminator.uses]) ?_ ?_ (by simp) fun _ => ?_
  · intro next hnext
    obtain rfl : next = id := by simpa [Terminator.successors] using hnext
    exact ⟨hid.2, hpassed, .inl hid.1⟩
  · rintro target args ⟨⟩
    rw [hparams]
  · exact Verify.jump_eq_ok.mpr ⟨hid.2, by rw [hparams], by simp⟩

/-- What is known while a loop is made, which is entered from a state where control can be. -/
structure LoopMade (c : LowerContext) (result : Ty) (passed₀ : Passed) (s₀ : LowerState)
    (blocks : LoopBlocks) (passed : Passed) (s : LowerState) : Prop where
  stage : Stage c result passed₀ s₀ passed s
  preheader : blocks.preheader < s.function.blocks.length
  header : s₀.function.blocks.length ≤ blocks.header ∧ blocks.header < s.function.blocks.length
  body : s₀.function.blocks.length ≤ blocks.body ∧ blocks.body < s.function.blocks.length
  latch : s₀.function.blocks.length ≤ blocks.latch ∧ blocks.latch < s.function.blocks.length
  first : s₀.function.blocks.length ≤ blocks.exit
  distinct : blocks.body ≠ blocks.latch ∧ blocks.body ≠ blocks.exit ∧ blocks.latch ≠ blocks.exit
  params : (s.function.block blocks.header).params = []
  exit : Waits passed s blocks.exit (s₀.here passed₀) []
  passed : passed blocks.header = s₀.here passed₀

variable {blocks : LoopBlocks}

section

variable (h : LoopMade c result passed₀ s₀ blocks passed s)

include h

theorem LoopMade.reached (h' : Reached c result scope passed s passed' s') :
  LoopMade c result passed₀ s₀ blocks passed' s'
  := by
  have hlength := h'.grown.widens.length
  exact ⟨h.stage.reached h', h.preheader.trans_le hlength, ⟨h.header.1, h.header.2.trans_le hlength⟩,
    ⟨h.body.1, h.body.2.trans_le hlength⟩, ⟨h.latch.1, h.latch.2.trans_le hlength⟩, h.first, h.distinct,
    (h'.grown.kept _ h.header.2).trans h.params, h.exit.grown h'.grown,
    (h'.grown.passed _ h.header.2).trans h.passed⟩

theorem LoopMade.ended (h' : Stage c result passed₀ s₀ passed s' ∧ Ended s s') :
  LoopMade c result passed₀ s₀ blocks passed s'
  := by
  have hlength := h'.2.length.ge
  exact ⟨h'.1, h.preheader.trans_le hlength, ⟨h.header.1, h.header.2.trans_le hlength⟩,
    ⟨h.body.1, h.body.2.trans_le hlength⟩, ⟨h.latch.1, h.latch.2.trans_le hlength⟩, h.first, h.distinct,
    (h'.2.params _).trans h.params, h.exit.ended h'.2, h.passed⟩

theorem LoopMade.enter (hid : s₀.function.blocks.length ≤ id) (hwaits : Waits passed s id before params)
    (hne : blocks.exit ≠ id) :
  LoopMade c result passed₀ s₀ blocks passed { s with current := id, isOpen := true }
  := ⟨h.stage.enter hid hwaits, h.preheader, h.header, h.body, h.latch, h.first, h.distinct, h.params,
    h.exit.entered hne, h.passed⟩

/-- An action inside a loop, between its header and its latch. -/
theorem ensures_inLoop {α : Type} {action : Lower α} (hready : s.Ready c result passed scope)
    (hhere : s₀.here passed₀ ⊆ s.here passed) (hlatch : Waits passed s blocks.latch (s₀.here passed₀) [])
    (haction : ∀ s₁, s₁.Ready c result passed scope →
      Ensures c s₁ action fun _ s' => ∃ passed' scope', Reached c result scope' passed s₁ passed' s'
        ∧ s'.frames = s₁.frames) :
  Ensures c s (inLoop blocks.latch blocks.exit action) fun _ s' => ∃ passed',
    LoopMade c result passed₀ s₀ blocks passed' s' ∧ s'.Binds c scope
      ∧ (s'.isOpen = true → s₀.here passed₀ ⊆ s'.here passed')
      ∧ Waits passed' s' blocks.latch (s₀.here passed₀) []
  := by
  have hsound := h.stage.sound
  set s₁ : LowerState := { s with loop := some ⟨blocks.latch, blocks.exit, s.frames.length⟩ } with hs₁
  have hready₁ : s₁.Ready c result passed scope := by
    refine ⟨⟨⟨hsound.built, hsound.current, hsound.unfinished, hsound.result, hsound.frames⟩,
      hready.isOpen, hready.binds, fun id hid => ?_⟩, hready.inside⟩
    have htarget : ∀ id, Waits passed s id (s₀.here passed₀) [] → id < s.function.blocks.length
        ∧ (s.function.block id).params = [] ∧ passed id ⊆ s.here passed := by
      intro id hwaits
      exact ⟨hwaits.lt, by rw [hwaits.block], hwaits.passed.symm ▸ hhere⟩
    obtain ⟨targets, hsome, hid⟩ := hid
    obtain rfl := Option.some.inj hsome
    rcases hid with rfl | rfl
    · exact htarget _ hlatch
    · exact htarget _ h.exit
  refine .bind_get (.bind_modify ((haction s₁ hready₁).bind fun a s₂ h₂ => .bind_modify (.pure ?_)))
  obtain ⟨passed', scope', h₂, hframes⟩ := h₂
  set s₃ : LowerState := { s₂ with loop := s.loop } with hs₃
  have hwaits : ∀ id, Waits passed s id (s₀.here passed₀) [] → Waits passed' s₃ id (s₀.here passed₀) [] := by
    intro id hwaits
    have hwaits₁ : Waits passed s₁ id (s₀.here passed₀) [] :=
      ⟨hwaits.lt, hwaits.idle, hwaits.block, hwaits.passed⟩
    have hwaits₂ := hwaits₁.grown h₂.grown
    exact ⟨hwaits₂.lt, hwaits₂.idle, hwaits₂.block, hwaits₂.passed⟩
  have hstage : Stage c result passed₀ s₀ passed' s₃ := by
    refine ⟨Grown.leaveLoop h.stage.grown hs₁ h.latch.1 h.first h₂.grown, ?_⟩
    exact ⟨h₂.sound.built, h₂.sound.current, h₂.sound.unfinished, h₂.sound.result, h₂.sound.frames⟩
  have hlength := h₂.grown.widens.length
  refine ⟨passed', ⟨hstage, h.preheader.trans_le hlength, ⟨h.header.1, h.header.2.trans_le hlength⟩,
    ⟨h.body.1, h.body.2.trans_le hlength⟩, ⟨h.latch.1, h.latch.2.trans_le hlength⟩, h.first, h.distinct,
    (h₂.grown.kept _ h.header.2).trans h.params, hwaits _ h.exit,
    (h₂.grown.passed _ h.header.2).trans h.passed⟩, ?_, fun hopen => ?_, hwaits _ hlatch⟩
  · exact hready.binds.mono h₂.grown.widens.slots hframes
  · exact hhere.trans (h₂.here hopen)

end

/-- Control is in the header of a new loop; without a test the body is the header. -/
theorem ensures_enterLoop (h : s.Live c result passed scope) (isTested : Bool) :
  Ensures c s (enterLoop isTested) fun blocks s' => ∃ passed', LoopMade c result passed s blocks passed' s'
    ∧ s'.Live c result passed' scope ∧ s'.frames = s.frames ∧ s.here passed ⊆ s'.here passed'
    ∧ Waits passed' s' blocks.latch (s.here passed) []
    ∧ (isTested = true → Waits passed' s' blocks.body (s.here passed) [])
  := by
  refine (ensures_freshBlock h (s.here passed)).bind fun preheader s₁ ⟨passed₁, h₁⟩ => ?_
  have hlive₁ := h₁.live h
  have hpre : s.function.blocks.length ≤ preheader := h₁.id_eq.ge
  have hstage₁ := (Stage.start h.sound).reached h₁.toReached
  refine (ensures_jump hstage₁ hlive₁.isOpen ⟨hpre, h₁.waits.lt⟩ (by rw [h₁.waits.block])
    (h₁.waits.passed ▸ h₁.here hlive₁.isOpen)).bind fun _ s₂ h₂ => .bind_modify ?_
  obtain ⟨hstage₂, hended₂⟩ := h₂
  have hwaits₂ := h₁.waits.ended hended₂
  set s₃ : LowerState := { s₂ with current := preheader, isOpen := true } with hs₃
  have hstage₃ : Stage c result passed s passed₁ s₃ := hstage₂.enter hpre hwaits₂
  have hlive₃ : s₃.Live c result passed₁ scope :=
    Live.enter h hstage₂ hpre hwaits₂ subset_rfl
      (hlive₁.binds.mono hended₂.widens.slots hended₂.frames)
  have hlt₃ : preheader < s₃.function.blocks.length := hwaits₂.lt
  have hhere₃ : s.here passed ⊆ s₃.here passed₁ := by
    rw [← hwaits₂.passed]
    exact Set.subset_insert _ _
  refine (ensures_freshBlock hlive₃ (s.here passed)).bind fun header s₄ ⟨passed₄, h₄⟩ => ?_
  have hlive₄ := h₄.live hlive₃
  have hfirst : s.function.blocks.length ≤ header := h₄.id_eq ▸ hpre.trans hlt₃.le
  -- from here on the two kinds of loops differ only in where their bodies are
  have hrest : ∀ body s₅ passed₅, Reached c result scope passed₄ s₄ passed₅ s₅ →
      s₅ = { s₄ with function := s₅.function } → header ≤ body → body < s₅.function.blocks.length →
      (isTested = true → header < body ∧ Waits passed₅ s₅ body (s.here passed) []) →
      Ensures c s₅ (do
          let latch ← freshBlock
          let exit ← freshBlock
          terminate (.jump header [])
          enterBlock header
          return (⟨preheader, header, body, latch, exit, exit + 1⟩ : LoopBlocks))
        fun blocks s' => ∃ passed', LoopMade c result passed s blocks passed' s'
          ∧ s'.Live c result passed' scope ∧ s'.frames = s.frames ∧ s.here passed ⊆ s'.here passed'
          ∧ Waits passed' s' blocks.latch (s.here passed) []
          ∧ (isTested = true → Waits passed' s' blocks.body (s.here passed) []) := by
    intro body s₅ passed₅ h₅ hstate₅ hle hlt htested
    have hlive₅ := hlive₄.after h₅ (by rw [hstate₅, hlive₄.isOpen])
    refine (ensures_freshBlock hlive₅ (s.here passed)).bind fun latch s₆ ⟨passed₆, h₆⟩ => ?_
    have hlive₆ := h₆.live hlive₅
    refine (ensures_freshBlock hlive₆ (s.here passed)).bind fun exit s₇ ⟨passed₇, h₇⟩ => ?_
    have hlive₇ := h₇.live hlive₆
    -- control has not moved since the preheader was entered
    have h₃₇ := ((h₄.toReached.trans hlive₄.isOpen h₅).trans hlive₅.isOpen h₆.toReached).trans
      hlive₆.isOpen h₇.toReached
    have hframes₇ : s₇.frames = s.frames := by
      rw [h₇.frames, h₆.frames, hstate₅, h₄.frames, hs₃, hended₂.frames, h₁.frames]
    have hgrown₅ := h₆.grown.trans h₇.grown
    have hheader := (h₄.waits.grown h₅.grown).grown hgrown₅
    have hlatch := h₆.waits.grown h₇.grown
    have hlt₅ : body < latch := h₆.id_eq ▸ hlt
    have hlt₆ : latch < exit := h₇.id_eq ▸ h₆.waits.lt
    have hstage₇ := hstage₃.reached h₃₇
    refine (ensures_jump hstage₇ hlive₇.isOpen ⟨hfirst, hheader.lt⟩ (by rw [hheader.block]) ?_).bind
      fun _ s₈ h₈ => .bind_modify (.pure ?_)
    · rw [hheader.passed]
      exact hhere₃.trans (h₃₇.here hlive₇.isOpen)
    obtain ⟨hstage₈, hended₈⟩ := h₈
    have hheader₈ := hheader.ended hended₈
    have hlatch₈ := hlatch.ended hended₈
    have hexit₈ := h₇.waits.ended hended₈
    have hlt₈ : exit < s₈.function.blocks.length := hexit₈.lt
    have hpre₈ : preheader < s₈.function.blocks.length :=
      hlt₃.trans_le (h₃₇.grown.widens.length.trans hended₈.length.ge)
    refine ⟨passed₇, ⟨hstage₈.enter hfirst hheader₈, hpre₈, ⟨hfirst, hheader₈.lt⟩,
      ⟨hfirst.trans hle, (hlt₅.trans hlt₆).trans hlt₈⟩,
      ⟨hfirst.trans (hle.trans hlt₅.le), hlt₆.trans hlt₈⟩, hfirst.trans (hle.trans (hlt₅.trans hlt₆).le),
      ⟨hlt₅.ne, (hlt₅.trans hlt₆).ne, hlt₆.ne⟩, by rw [hheader₈.block], ?_, hheader₈.passed⟩,
      ?_, hended₈.frames.trans hframes₇, ?_, ?_, fun h => ?_⟩
    · exact hexit₈.entered (hle.trans_lt (hlt₅.trans hlt₆)).ne'
    · exact Live.enter h hstage₈ hfirst hheader₈ subset_rfl
        (hlive₇.binds.mono hended₈.widens.slots hended₈.frames)
    · rw [← hheader₈.passed]
      exact Set.subset_insert _ _
    · exact hlatch₈.entered (hle.trans_lt hlt₅).ne'
    · exact (((htested h).2.grown hgrown₅).ended hended₈).entered (htested h).1.ne'
  cases isTested with
  | true =>
    refine (ensures_freshBlock hlive₄ (s.here passed)).bind fun body s₅ ⟨passed₅, h₅⟩ => ?_
    have hlt : header < body := h₅.id_eq ▸ h₄.waits.lt
    exact hrest body s₅ passed₅ h₅.toReached h₅.state hlt.le h₅.waits.lt fun _ => ⟨hlt, h₅.waits⟩
  | false =>
    rw [if_neg Bool.false_ne_true, pure_bind]
    refine hrest header s₄ passed₄ ?_ rfl le_rfl h₄.waits.lt (by simp)
    exact ⟨hlive₄.sound.grown, hlive₄.sound, fun _ => subset_rfl, fun _ => hlive₄.binds⟩

/-- Control goes from the test of a loop to its body. -/
theorem ensures_enterBody (h₀ : s₀.Live c result passed₀ scope₀) (h : LoopMade c result passed₀ s₀ blocks passed s)
    (hlive : s.Live c result passed scope) (hhere : s₀.here passed₀ ⊆ s.here passed) {test : VarId}
    (htest : s.Holds c passed test .bool) (hbody : Waits passed s blocks.body (s₀.here passed₀) []) :
  Ensures c s (enterBody blocks test) fun _ s' => LoopMade c result passed₀ s₀ blocks passed s'
    ∧ s'.Live c result passed scope ∧ s'.frames = s.frames ∧ s₀.here passed₀ ⊆ s'.here passed
    ∧ ∀ id before params, id ≠ blocks.body → Waits passed s id before params →
      Waits passed s' id before params
  := by
  obtain ⟨⟨t, htype, hv⟩, hdefined⟩ := htest
  obtain rfl : .bool = t := by simpa [LowerContext.valueType?, Substitution.apply, ValueType.ofTy?] using htype
  have hnext : ∀ next ∈ [blocks.body, blocks.exit], ∃ id, next = id ∧ s₀.function.blocks.length ≤ id
      ∧ Waits passed s id (s₀.here passed₀) [] := by
    simp only [List.mem_cons, List.not_mem_nil, or_false]
    rintro next (rfl | rfl)
    · exact ⟨_, rfl, h.body.1, hbody⟩
    · exact ⟨_, rfl, h.first, h.exit⟩
  refine (ensures_terminate h.stage hlive.isOpen (by simpa [Terminator.uses] using hdefined) ?_ (by simp)
    ?_ fun _ => ?_).bind fun _ s₁ h₁ => .modify ?_
  · intro next hmem
    obtain ⟨_, rfl, hle, hwaits⟩ := hnext next (by simpa [Terminator.successors] using hmem)
    exact ⟨hwaits.lt, hwaits.passed.symm ▸ hhere, .inl hle⟩
  · rintro _ _ _ ⟨⟩ next hmem
    obtain ⟨_, rfl, -, hwaits⟩ := hnext next hmem
    rw [hwaits.block]
  · refine Verify.branch_eq_ok.mpr ⟨hv, fun next hmem => ?_⟩
    obtain ⟨_, rfl, -, hwaits⟩ := hnext next hmem
    exact ⟨hwaits.lt, by rw [hwaits.block]⟩
  · have hstage₁ := h₁.1
    have hended₁ := h₁.2
    have hbody₁ := hbody.ended hended₁
    refine ⟨(h.ended h₁).enter h.body.1 hbody₁ h.distinct.2.1.symm, ?_, hended₁.frames, ?_, ?_⟩
    · exact Live.enter h₀ hstage₁ h.body.1 hbody₁ subset_rfl
        (hlive.binds.mono hended₁.widens.slots hended₁.frames)
    · rw [← hbody₁.passed]
      exact Set.subset_insert _ _
    · exact fun id before params hne hwaits => (hwaits.ended hended₁).entered hne

/-- Control goes from the body of a loop, or from jumps in it, to the latch. -/
theorem ensures_enterLatch (h₀ : s₀.Live c result passed₀ scope₀) (h : LoopMade c result passed₀ s₀ blocks passed s)
    (hbinds : s.Binds c scope) (hhere : s.isOpen = true → s₀.here passed₀ ⊆ s.here passed)
    (hlatch : Waits passed s blocks.latch (s₀.here passed₀) []) :
  Ensures c s (enterLatch blocks) fun _ s' => LoopMade c result passed₀ s₀ blocks passed s'
    ∧ s'.Live c result passed scope ∧ s₀.here passed₀ ⊆ s'.here passed
  := by
  refine .bind_isOpen (.bind_ite (m := fun s₁ => Stage c result passed₀ s₀ passed s₁ ∧ Ended s s₁)
    (fun hopen => ?_) (fun hclosed => ⟨h.stage, .refl hclosed⟩) fun s₁ h₁ => .modify ?_)
  · exact ensures_jump h.stage hopen h.latch (by rw [hlatch.block]) (hlatch.passed.symm ▸ hhere hopen)
  · have hlatch₁ := hlatch.ended h₁.2
    refine ⟨(h.ended h₁).enter h.latch.1 hlatch₁ h.distinct.2.2.symm, ?_, ?_⟩
    · exact Live.enter h₀ h₁.1 h.latch.1 hlatch₁ subset_rfl (hbinds.mono h₁.2.widens.slots h₁.2.frames)
    · rw [← hlatch₁.passed]
      exact Set.subset_insert _ _

/-- The record of a loop. -/
theorem Stage.addLoop (h : Stage c result passed₀ s₀ passed s) {l : LoopInfo}
    (hl : ∀ b ∈ l.preheader :: l.header :: l.latch :: l.exit :: l.blocks, b < s.function.blocks.length) :
  Stage c result passed₀ s₀ passed
    { s with function := { s.function with loops := s.function.loops ++ [l] } }
  := by
  have hwidens : s.function.Widens { s.function with loops := s.function.loops ++ [l] } :=
    ⟨rfl, List.prefix_refl _, List.prefix_refl _, le_rfl, fun _ _ => id, fun _ _ => id⟩
  have hgrown := h.grown
  refine ⟨⟨hgrown.widens.trans hwidens, hgrown.entry, hgrown.params, ?_, hgrown.others, hgrown.kept,
    hgrown.writes, hgrown.targets, hgrown.passed, hgrown.loop, hgrown.tail, hgrown.depth⟩,
    ⟨h.sound.built.addLoop hl, h.sound.current, h.sound.unfinished, h.sound.result, ?_⟩⟩
  · exact hgrown.loops.trans (List.prefix_append _ _)
  · exact fun frame hframe => (h.sound.frames frame hframe).mono hwidens

/-- Control goes on after a loop. -/
theorem ensures_leaveLoop (h : LoopMade c result passed₀ s₀ blocks passed s) (hbinds : s.Binds c scope)
    (hhere : s.isOpen = true → s₀.here passed₀ ⊆ s.here passed) (induction : Option Induction) :
  Ensures c s (leaveLoop blocks induction) fun _ s' => Reached c result scope passed₀ s₀ passed s'
  := by
  refine .bind_get (.bind_isOpen (.bind_ite
    (m := fun s₁ => Stage c result passed₀ s₀ passed s₁ ∧ Ended s s₁) (fun hopen => ?_)
    (fun hclosed => ⟨h.stage, .refl hclosed⟩) fun s₁ h₁ => .bind_get (.bind_modify ?_)))
  · exact ensures_jump h.stage hopen h.header h.params (h.passed.symm ▸ hhere hopen)
  · have h' := h.ended h₁
    have hcurrent : s.current < s₁.function.blocks.length := h.stage.sound.current.trans_le h₁.2.length.ge
    have hstage := h₁.1.addLoop (l := ⟨blocks.preheader, blocks.header, s.current, blocks.exit,
      [blocks.header, blocks.body, blocks.latch].eraseDups
        ++ List.range' blocks.count (s₁.function.blocks.length - blocks.count), induction⟩) ?_
    · refine (ensures_continueAt hstage h.first ⟨h'.exit.lt, h'.exit.idle, h'.exit.block, h'.exit.passed⟩
        subset_rfl ?_).mono fun _ s₂ h₂ => h₂.1
      exact hbinds.mono h₁.2.widens.slots h₁.2.frames
    · simp only [List.mem_cons, List.mem_append, List.mem_eraseDups, List.mem_range', List.not_mem_nil,
        or_false]
      rintro b (rfl | rfl | rfl | rfl | (rfl | rfl | rfl) | ⟨i, hi, rfl⟩)
      · exact h'.preheader
      · exact h'.header.2
      · exact hcurrent
      · exact h'.exit.lt
      · exact h'.header.2
      · exact h'.body.2
      · exact h'.latch.2
      · show blocks.count + 1 * i < s₁.function.blocks.length
        omega

end

end Lower

end FormCompiler
