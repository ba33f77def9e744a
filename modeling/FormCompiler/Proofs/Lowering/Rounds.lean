import FormCompiler.Proofs.Lowering.Branching

/-!
# Walking through loops

The blocks of a loop are made in its preheader. What the loop adds to its blocks leaves those alone that
have been closed (`Spot.Done`): the block before the loop, the preheader, and then the header.
-/

namespace FormCompiler

open FormCompiler.Flow

/-- The blocks of a loop that are made when there are already so many. -/
def Lower.loopBlocks (isTested : Bool) (count : Nat) : LoopBlocks :=
  let body := if isTested then count + 2 else count + 1
  ⟨count, count + 1, body, body + 1, body + 2, body + 3⟩

/-- The blocks of a loop come in this order. -/
theorem Lower.loopBlocks_order (isTested : Bool) (count : Nat) :
  let blocks := loopBlocks isTested count
  blocks.preheader = count ∧ count < blocks.header ∧ blocks.header ≤ blocks.body ∧ blocks.body < blocks.latch
    ∧ blocks.latch < blocks.exit ∧ blocks.exit < blocks.count
  := by
  cases isTested <;> simp [loopBlocks]

namespace Spot

open Lower (LoopBlocks)

variable {V : Expr → Prop} {base : Function} {p q r s : Spot} {id : BlockId} {instrs : List Instr} {t : Terminator}
  {blocks : LoopBlocks}

/-! ## Blocks that are closed -/

/-- The code of a block does not change any more. -/
structure Done (p : Spot) (id : BlockId) (instrs : List Instr) (t : Terminator) : Prop where
  rests : p.Rests 0 id
  instrs : (p.function.block id).instrs = instrs
  terminator : (p.function.block id).terminator = t

theorem Done.steps (h : p.Done id instrs t) (h' : Steps V base p q) :
  q.Done id instrs t
  := by
  obtain ⟨hrests, hinstrs, hterminator⟩ := Steps.rests h' (Nat.zero_le _) h.rests
  exact ⟨hrests, hinstrs.trans h.instrs, hterminator.trans h.terminator⟩

theorem done_terminate (hcurrent : p.state.current < p.function.blocks.length) (ht : t ≠ .unreachable) :
  (p.terminate t).Done p.state.current (p.function.block p.state.current).instrs t
  := by
  have hterminator : ((p.terminate t).function.block p.state.current).terminator = t := by
    rw [terminator_terminate, if_pos ⟨rfl, hcurrent⟩]
  refine ⟨⟨?_, fun hopen => Bool.noConfusion hopen, fun _ _ hblank => ?_⟩, instrs_terminate t, hterminator⟩
  · rw [length_terminate]
    exact hcurrent
  · exact ht (hterminator.symm.trans hblank.2)

/-! ## The preheader -/

/-- What is known in the preheader of a loop. -/
structure AtPreheader (V : Expr → Prop) (p : Spot) (preheader : BlockId) (r : Spot) : Prop where
  within : Within V p r
  isOpen : r.state.isOpen = true
  frames : r.state.frames = p.state.frames
  current : r.state.current = preheader
  here : r.here = insert preheader p.here
  before : r.Done p.state.current (p.function.block p.state.current).instrs (.jump preheader [])
  only : ∀ id, preheader ∈ r.function.successors id → id = p.state.current
  away : preheader ∉ r.ways
  blank : ∀ id, p.function.blocks.length ≤ id → r.function.IsBlank id

theorem atPreheader (hp : p.Ready) :
  AtPreheader V p p.function.blocks.length ((p.addBlock.terminate (.jump p.function.blocks.length [])).enter
    p.function.blocks.length (p.ways ∪ ∅))
  := by
  have hmade := (Within.refl (V := V) p).addBlock hp.sound hp.isOpen
  have hpending := pending_addBlock hp.sound.current
  have hjump : Moves V p.addBlock (p.addBlock.terminate (.jump p.function.blocks.length [])) :=
    (leads_terminate (p := p.addBlock) hp.isOpen (by simpa [Terminator.successors] using hpending.way)).toMoves
  have hclosed := hmade.closes hjump rfl
  have hpending' := hpending.moves hjump
  have hsince := Set.subset_insert p.function.blocks.length p.here
  refine ⟨hclosed.enter ∅ hp rfl le_rfl hpending' hsince (by simp), rfl, rfl, rfl, ?_, ?_, fun id hid => ?_, ?_,
    fun id hid => ?_⟩
  · exact congrArg (insert _) hpending'.passed
  · have hdone := done_terminate (t := .jump p.function.blocks.length []) (hmade.sound hp.sound).current (by simp)
    rw [block_addBlock] at hdone
    exact hdone.steps (.single (hclosed.step_enter hp rfl le_rfl hpending' hsince (by simp)))
  · change _ ∈ ((p.addBlock.terminate _).function.block id).terminator.successors at hid
    rw [terminator_terminate] at hid
    split at hid
    · next hcurrent => exact hcurrent.1
    · rw [block_addBlock] at hid
      exact absurd (hp.sound.targets id _ hid).1 (lt_irrefl _)
  · rw [enter, Set.union_empty]
    exact fun hway => absurd (hp.sound.ways _ hway).1 (lt_irrefl _)
  · have hne : id ≠ p.state.current := (hp.sound.current.trans_le hid).ne'
    change ((p.addBlock.terminate _).function.block id).instrs = []
      ∧ ((p.addBlock.terminate _).function.block id).terminator = .unreachable
    rw [instrs_terminate, terminator_terminate, if_neg fun h => hne h.1, block_addBlock]
    exact isBlank_of_length_le hid

theorem AtPreheader.addBlock {preheader : BlockId} (h : AtPreheader V p preheader r) (hp : p.Ready) :
  AtPreheader V p preheader r.addBlock ∧ r.addBlock.Pending r.function.blocks.length (insert preheader p.here)
  := by
  have hcurrent := (h.within.sound hp.sound).current
  have hhere := here_addBlock hcurrent
  have hstep : Step V p.function r r.addBlock := .addBlock h.isOpen
  refine ⟨⟨h.within.addBlock hp.sound h.isOpen, h.isOpen, h.frames, h.current, hhere.trans h.here,
    h.before.steps (.single hstep), fun id hid => ?_, ?_, fun id hid => ?_⟩, ?_⟩
  · exact h.only id (hstep.grows.mem_successors (h.current ▸ hcurrent) h.away hid)
  · rintro (heq | hway)
    · exact (h.current ▸ hcurrent).ne heq
    · exact h.away hway
  · rw [Function.IsBlank, block_addBlock]
    exact h.blank id hid
  · rw [← h.here]
    exact pending_addBlock hcurrent

/-! ## Loops -/

/-- What is known while the blocks of a loop are made. -/
structure Looping (V : Expr → Prop) (p : Spot) (blocks : LoopBlocks) (r : Spot) : Prop where
  within : Within V p r
  header : blocks.header ∈ r.ways
  passed : r.passed blocks.header = insert blocks.preheader p.here
  exit : r.Pending blocks.exit (insert blocks.preheader p.here)
  before : r.Done p.state.current (p.function.block p.state.current).instrs (.jump blocks.preheader [])
  /-- Control comes to the preheader from nowhere else. -/
  only : ∀ id, blocks.preheader ∈ r.function.successors id → id = p.state.current
  away : blocks.preheader ∉ r.ways
  preheader : r.Done blocks.preheader [] (.jump blocks.header [])

theorem AtPreheader.looping (h : AtPreheader V p blocks.preheader r) (hp : p.Ready) {ways : Set BlockId}
    (hnew : p.function.blocks.length ≤ blocks.preheader) (hheader : blocks.header ∈ ways)
    (hexit : blocks.exit ∈ ways) (hne : blocks.exit ≠ blocks.header) (hlt : blocks.preheader < blocks.header)
    (hways : ∀ way ∈ ways, r.Pending way (insert blocks.preheader p.here)) :
  Looping V p blocks ((r.terminate (.jump blocks.header [])).enter blocks.header (p.ways ∪ ways))
  := by
  have hjump : Moves V r (r.terminate (.jump blocks.header [])) :=
    (leads_terminate h.isOpen (by simpa [Terminator.successors] using (hways _ hheader).way)).toMoves
  have hclosed := h.within.closes hjump rfl
  have hpending := fun way hway => (hways way hway).moves hjump
  have hsince : p.here ⊆ insert blocks.header (insert blocks.preheader p.here) :=
    (Set.subset_insert _ _).trans (Set.subset_insert _ _)
  have henter := hclosed.step_enter hp rfl (hnew.trans hlt.le) (hpending _ hheader) hsince fun way hway =>
    ⟨(hpending way hway).way, (hpending way hway).passed ▸ Set.subset_insert _ _⟩
  have hsteps := Relation.ReflTransGen.single henter
  refine ⟨hclosed.enter ways hp rfl (hnew.trans hlt.le) (hpending _ hheader) hsince fun way hway =>
    ⟨(hpending way hway).way, (hpending way hway).passed ▸ Set.subset_insert _ _⟩, .inr hheader,
    (hpending _ hheader).passed, (hpending _ hexit).enter hne (.inr hexit),
    (h.before.steps hjump.steps).steps hsteps, fun id hid => ?_, ?_, ?_⟩
  · have hlength : blocks.preheader < r.function.blocks.length := h.current ▸ (h.within.sound hp.sound).current
    exact h.only id ((hjump.grows.trans henter.grows).mem_successors hlength h.away hid)
  · rintro (hway | hway)
    · exact h.away (h.within.ways hway)
    · exact h.away (hways _ hway).way
  · have hdone := done_terminate (t := .jump blocks.header []) (h.within.sound hp.sound).current (by simp)
    rw [h.current, (h.blank _ hnew).1] at hdone
    exact hdone.steps hsteps

theorem Looping.moves (h : Looping V p blocks r) (hp : p.Sound) (h' : Moves V r s)
    (hopen : s.state.isOpen = true → r.state.isOpen = true) :
  Looping V p blocks s
  := by
  have hheader : blocks.header < r.function.blocks.length := ((h.within.sound hp).ways _ h.header).1
  refine ⟨?_, h'.ways ▸ h.header, (h'.grows.passed _ hheader).trans h.passed, h.exit.moves h',
    h.before.steps h'.steps, fun id hid => h.only id (h'.grows.mem_successors h.preheader.rests.lt h.away hid),
    h'.ways ▸ h.away, h.preheader.steps h'.steps⟩
  cases hs : s.state.isOpen with
  | true => exact h.within.moves (hopen hs) h'
  | false => exact h.within.closes h' hs

/-- Control comes to a block of a loop. -/
theorem Looping.enter (h : Looping V p blocks r) (ways : Set BlockId) (hp : p.Ready)
    (hclosed : r.state.isOpen = false) (hnew : p.function.blocks.length ≤ id) (hid : r.Pending id (insert blocks.preheader p.here))
    (hne : blocks.exit ≠ id) (hheader : blocks.header ∈ ways) (hexit : blocks.exit ∈ ways)
    (hways : ∀ way ∈ ways, way ∈ r.ways ∧ r.passed way = insert blocks.preheader p.here) :
  Looping V p blocks (r.enter id (p.ways ∪ ways)) ∧ Step V p.function r (r.enter id (p.ways ∪ ways))
  := by
  have hsince : p.here ⊆ insert id (insert blocks.preheader p.here) :=
    (Set.subset_insert _ _).trans (Set.subset_insert _ _)
  have hways' : ∀ way ∈ ways, way ∈ r.ways ∧ r.passed way ⊆ insert id (insert blocks.preheader p.here) :=
    fun way hway => ⟨(hways way hway).1, (hways way hway).2 ▸ Set.subset_insert _ _⟩
  have hstep := h.within.step_enter hp hclosed hnew hid hsince hways'
  refine ⟨⟨h.within.enter ways hp hclosed hnew hid hsince hways', .inr hheader, h.passed,
    h.exit.enter hne (.inr hexit), h.before.steps (.single hstep), h.only, ?_, h.preheader.steps (.single hstep)⟩, hstep⟩
  rintro (hway | hway)
  · exact h.away (h.within.ways hway)
  · exact h.away (hways _ hway).1

end Spot

namespace Lower

open Spot

-- the equations of `form` are many, and all lemmas below need them
attribute [local simp] form

section

variable {c : LowerContext} {V : Expr → Prop} {inner : Prop} {p r : Spot} {place : Place} {id : Nat} {span : Span}
  {blocks : LoopBlocks} {since ways : Set BlockId}

/-- The blocks of a loop; control comes to its header. -/
theorem walks_enterLoop (hp : p.Ready) (isTested : Bool) :
  Walks c p (enterLoop isTested) fun blocks r => blocks = loopBlocks isTested p.function.blocks.length
    ∧ Looping V p blocks r ∧ r.state.isOpen = true ∧ r.state.frames = p.state.frames
    ∧ r.state.current = blocks.header ∧ r.Pending blocks.latch (insert blocks.preheader p.here)
    ∧ (isTested = true → r.Pending blocks.body (insert blocks.preheader p.here))
    ∧ ∀ id, blocks.preheader < id → r.function.IsBlank id
  := by
  refine walks_freshBlock.bind ?_
  rintro preheader _ ⟨hpreheader, rfl⟩
  refine (walks_end _).bind ?_
  rintro _ _ rfl
  refine (walks_enterBlock preheader (p.ways ∪ ∅)).bind ?_
  rintro _ r₀ hr₀
  have h₀ : AtPreheader V p preheader r₀ := hr₀ ▸ hpreheader ▸ atPreheader hp
  have hlength₀ : r₀.function.blocks.length = preheader + 1 := by
    rw [hr₀, hpreheader]
    exact (length_terminate _).trans length_addBlock
  refine walks_freshBlock.bind ?_
  rintro header _ ⟨hheader, rfl⟩
  obtain ⟨h₁, hpending₁⟩ := h₀.addBlock hp
  rw [← hheader] at hpending₁
  have hlt₀ : preheader < header := by
    rw [hheader, hlength₀]
    exact Nat.lt_succ_self _
  -- from here on the two kinds of loops differ only in where their bodies are
  have hrest : ∀ body r, AtPreheader V p preheader r → r.Pending header (insert preheader p.here) →
      r.Pending body (insert preheader p.here) → header ≤ body → (isTested = true → header < body) →
      body = (if isTested then preheader + 2 else preheader + 1) → r.function.blocks.length = body + 1 →
      Walks c r (do
        let latch ← freshBlock
        let exit ← freshBlock
        terminate (.jump header [])
        enterBlock header
        return (⟨preheader, header, body, latch, exit, exit + 1⟩ : LoopBlocks))
      fun blocks r => blocks = loopBlocks isTested p.function.blocks.length
        ∧ Looping V p blocks r ∧ r.state.isOpen = true ∧ r.state.frames = p.state.frames
        ∧ r.state.current = blocks.header ∧ r.Pending blocks.latch (insert blocks.preheader p.here)
        ∧ (isTested = true → r.Pending blocks.body (insert blocks.preheader p.here))
        ∧ ∀ id, blocks.preheader < id → r.function.IsBlank id := by
    intro body r h hheaderPending hbodyPending hle hlt hbody hlength
    refine walks_freshBlock.bind ?_
    rintro latch _ ⟨hlatch, rfl⟩
    refine walks_freshBlock.bind ?_
    rintro exit _ ⟨hexit, rfl⟩
    obtain ⟨h', hlatchPending⟩ := h.addBlock hp
    obtain ⟨h'', hexitPending⟩ := h'.addBlock hp
    rw [← hlatch] at hlatchPending
    rw [← hexit] at hexitPending
    refine (walks_end _).bind ?_
    rintro _ _ rfl
    refine (walks_enterBlock header (p.ways ∪ {header, body, latch, exit})).bind ?_
    rintro _ _ rfl
    have hlatch' : latch = body + 1 := hlatch.trans hlength
    have hexit' : exit = latch + 1 := hexit.trans (by rw [length_addBlock, ← hlatch])
    have hlt₁ : header < latch := hlatch' ▸ Nat.lt_succ_of_le hle
    have hlt₂ : latch < exit := hexit' ▸ Nat.lt_succ_self _
    have hways : ∀ way ∈ ({header, body, latch, exit} : Set BlockId),
        r.addBlock.addBlock.Pending way (insert preheader p.here) := by
      rintro way (rfl | rfl | rfl | rfl)
      · exact hheaderPending.addBlock.addBlock
      · exact hbodyPending.addBlock.addBlock
      · exact hlatchPending.addBlock
      · exact hexitPending
    set blocks : LoopBlocks := ⟨preheader, header, body, latch, exit, exit + 1⟩ with hblocks
    have hlooping : Looping V p blocks _ :=
      h''.looping hp hpreheader.ge (.inl rfl) (.inr (.inr (.inr rfl))) (hlt₁.trans hlt₂).ne' hlt₀ hways
    have hjump := (leads_terminate (V := V) (t := .jump header []) h''.isOpen
      (by simpa [Terminator.successors] using (hways header (.inl rfl)).way)).toMoves
    refine .pure ⟨?_, hlooping, rfl, h''.frames, rfl, ?_, fun htested => ?_, fun id hid => ?_⟩
    · rw [hblocks, loopBlocks, ← hpreheader, ← hbody, ← hlatch', hexit', hlatch', hheader, hlength₀]
    · exact ((hways latch (.inr (.inr (.inl rfl)))).moves hjump).enter hlt₁.ne' (.inr (.inr (.inr (.inl rfl))))
    · exact ((hways body (.inr (.inl rfl))).moves hjump).enter (hlt htested).ne' (.inr (.inr (.inl rfl)))
    · have hne : id ≠ r.addBlock.addBlock.state.current := h''.current ▸ hid.ne'
      change ((r.addBlock.addBlock.terminate _).function.block id).instrs = []
        ∧ ((r.addBlock.addBlock.terminate _).function.block id).terminator = .unreachable
      rw [instrs_terminate, terminator_terminate, if_neg fun h => hne h.1]
      exact h''.blank id (hpreheader ▸ hid.le)
  have hlength₁ : r₀.addBlock.function.blocks.length = preheader + 2 := by
    rw [length_addBlock, hlength₀]
  cases isTested with
  | false =>
    rw [if_neg Bool.false_ne_true, pure_bind]
    refine hrest header _ h₁ hpending₁ hpending₁ le_rfl (by simp) (hheader.trans hlength₀) ?_
    rw [hlength₁, hheader, hlength₀]
  | true =>
    refine walks_freshBlock.bind ?_
    rintro body _ ⟨hbody, rfl⟩
    obtain ⟨h₂, hpending₂⟩ := h₁.addBlock hp
    rw [← hbody] at hpending₂
    have hlt : header < body := by
      rw [hbody, hlength₁, hheader, hlength₀]
      exact Nat.lt_succ_self _
    refine hrest body _ h₂ hpending₁.addBlock hpending₂ hlt.le (fun _ => hlt) (hbody.trans hlength₁) ?_
    rw [length_addBlock, hbody]

/-- Control goes from the header of a loop to its body or out of it. -/
theorem walks_enterBody (hp : p.Ready) (h : Looping V p blocks r) (hopen : r.state.isOpen = true)
    (hblocks : blocks = loopBlocks true p.function.blocks.length)
    (hlatch : r.Pending blocks.latch (insert blocks.preheader p.here))
    (hbody : r.Pending blocks.body (insert blocks.preheader p.here)) (test : VarId) :
  Walks c r (enterBody blocks test) fun _ q => Looping V p blocks q ∧ q.state.isOpen = true
    ∧ q.state.frames = r.state.frames ∧ q.Pending blocks.latch (insert blocks.preheader p.here)
    ∧ q.Done r.state.current (r.function.block r.state.current).instrs (.branch test blocks.body blocks.exit)
    ∧ ∀ id, (q.function.block id).instrs = (r.function.block id).instrs
  := by
  refine (walks_end _).bind ?_
  rintro _ _ rfl
  refine (walks_enterBlock blocks.body (p.ways ∪ {blocks.header, blocks.latch, blocks.exit})).mono ?_
  rintro _ _ rfl
  have hbranch : Moves V r (r.terminate (.branch test blocks.body blocks.exit)) := by
    refine (leads_terminate hopen ?_).toMoves
    simpa [Terminator.successors] using ⟨hbody.way, h.exit.way⟩
  have h' := h.moves hp.sound hbranch fun _ => hopen
  have hlatch' := hlatch.moves hbranch
  have hne₁ : blocks.exit ≠ blocks.body := by simp [hblocks, loopBlocks]
  have hne₂ : blocks.latch ≠ blocks.body := by simp [hblocks, loopBlocks]
  obtain ⟨hentered, hstep⟩ := h'.enter {blocks.header, blocks.latch, blocks.exit} hp rfl
    (by simp [hblocks, loopBlocks]) (hbody.moves hbranch) hne₁ (.inl rfl) (.inr (.inr rfl)) (by
      rintro way (rfl | rfl | rfl)
      · exact ⟨h'.header, h'.passed⟩
      · exact ⟨hlatch'.way, hlatch'.passed⟩
      · exact ⟨h'.exit.way, h'.exit.passed⟩)
  exact ⟨hentered, rfl, rfl, hlatch'.enter hne₂ (.inr (.inr (.inl rfl))),
    (done_terminate (h.within.sound hp.sound).current (by simp)).steps (.single hstep), fun _ => instrs_terminate _⟩

/-- Control comes to the latch of a loop. -/
theorem walks_enterLatch (hp : p.Ready) (h : Looping V p blocks r) {isTested : Bool}
    (hblocks : blocks = loopBlocks isTested p.function.blocks.length)
    (hlatch : r.Pending blocks.latch (insert blocks.preheader p.here)) :
  Walks c r (enterLatch blocks) fun _ q => Looping V p blocks q ∧ q.state.isOpen = true
    ∧ q.state.frames = r.state.frames ∧ q.state.current = blocks.latch ∧ Steps V p.function r q
    ∧ ∀ id, (q.function.block id).instrs = (r.function.block id).instrs
  := by
  refine .bind_close (V := V) (fun _ => ?_) fun s hs hclosed hframes _ hinstrs _ => ?_
  · simpa [Terminator.successors] using hlatch.way
  have h' := h.moves hp.sound hs (by simp [hclosed])
  refine (walks_enterBlock blocks.latch (p.ways ∪ {blocks.header, blocks.exit})).mono ?_
  rintro _ _ rfl
  have hne : blocks.exit ≠ blocks.latch := by simp [hblocks, loopBlocks]
  have hnew : p.function.blocks.length ≤ blocks.latch := by
    obtain ⟨-, h₁, h₂, h₃, -⟩ := loopBlocks_order isTested p.function.blocks.length
    exact hblocks ▸ (h₁.trans_le (h₂.trans h₃.le)).le
  obtain ⟨hentered, hstep⟩ := h'.enter {blocks.header, blocks.exit} hp hclosed hnew (hlatch.moves hs) hne
    (.inl rfl) (.inr rfl) (by
      rintro way (rfl | rfl)
      · exact ⟨h'.header, h'.passed⟩
      · exact ⟨h'.exit.way, h'.exit.passed⟩)
  exact ⟨hentered, rfl, hframes, rfl, (hs.later h.within.grows).tail hstep, hinstrs⟩

/-- The body of a loop, where jumps go to the latch and the exit. -/
theorem walks_inLoop (hp : p.Ready) {latch exit : BlockId} (hlatch : latch ∈ p.ways) (hexit : exit ∈ p.ways)
    {action : Lower (Option VarId)} (haction : WalkedInScope V action) :
  Walks c p (discard (inLoop latch exit action)) fun _ q => Leads V p q ∧ q.state.frames = p.state.frames
  := by
  have hsame : ∀ (q : Spot) loop, q.Same { q with state := { q.state with loop := loop } } := fun q loop =>
    same_of_blocks rfl rfl rfl (List.prefix_refl _) rfl rfl
  set q : Spot := { p with state := { p.state with loop := some ⟨latch, exit, p.state.frames.length⟩ } } with hq
  have hpq : Step V p.function p q := .same (hsame p _)
  have hready : q.Ready := by
    refine ⟨hpq.sound hp.sound, hp.isOpen, hp.names, hp.exits, ?_⟩
    rintro _ ⟨⟩
    exact ⟨hlatch, hexit⟩
  refine Walks.discard (.bind_get (Ensures.bind_modify ((haction c q hready).bind ?_)))
  rintro value r ⟨hr, hframes, -⟩
  refine Ensures.bind_modify (Walks.pure (p := { r with state := { r.state with loop := p.state.loop } }) ?_)
  refine ⟨.of_frames hp (.head hpq (hr.steps.tail (.same (hsame r _)))) hr.ways rfl hframes hr.here, hframes⟩

/-- The blocks that a loop consists of, when there are already so many. -/
def loopMembers (blocks : LoopBlocks) (count : Nat) : List BlockId :=
  [blocks.header, blocks.body, blocks.latch].eraseDups ++ List.range' blocks.count (count - blocks.count)

/-- A spot from which control may be sent only to the exit of a loop and out of it. -/
def exiting (p : Spot) (blocks : LoopBlocks) (r : Spot) : Spot := { r with ways := p.ways ∪ {blocks.exit} }

/-- The end of a loop, which is recorded. -/
theorem walks_leaveLoop (hp : p.Ready) (h : Looping V p blocks r) {isTested : Bool}
    (hblocks : blocks = loopBlocks isTested p.function.blocks.length) {induction : Option Induction}
    (hcounts : ∀ i, induction = some i → r.state.isOpen = true
      ∧ (exiting p blocks (r.terminate (.jump blocks.header []))).Counts V ⟨blocks.preheader, blocks.header,
        r.state.current, blocks.exit, loopMembers blocks r.function.blocks.length, some i⟩ i) :
  Walks c r (leaveLoop blocks induction) fun _ q => Within V p q ∧ q.ways = p.ways
    ∧ q.state.frames = r.state.frames
  := by
  refine .bind_get (.bind_close (V := V) (fun _ => ?_) fun s hs hclosed hframes hcurrent _ hexact => ?_)
  · simpa [Terminator.successors] using h.header
  have hs' := h.moves hp.sound hs (by simp [hclosed])
  have hsame : s.Same (exiting p blocks s) := by
    refine ⟨rfl, fun _ => rfl, fun _ => rfl, rfl, rfl, List.prefix_refl _, rfl, rfl, rfl, ?_⟩
    exact Set.union_subset hs'.within.ways (by simpa using hs'.exit.way)
  have hwithin : Within V p (exiting p blocks s) :=
    ⟨hs'.within.steps.tail (.same hsame), Set.subset_union_left, hs'.within.loop, by simp [exiting, hclosed]⟩
  -- the ways into the loop are closed before it is recorded
  change Walks c (exiting p blocks s) _ _
  refine .bind_get (Walks.bind (m := fun _ q => q = (exiting p blocks s).record ⟨blocks.preheader, blocks.header,
    r.state.current, blocks.exit, loopMembers blocks s.function.blocks.length, induction⟩) ?_ ?_)
  · rintro _ _ ⟨⟩
    exact ⟨_, rfl, rfl⟩
  rintro _ q hq
  have hrecord : Step V p.function (exiting p blocks s) q := by
    rw [hq]
    refine .record fun i hi => ?_
    obtain rfl : induction = some i := hi
    obtain ⟨hopen, hcounts⟩ := hcounts i rfl
    rw [hexact hopen, length_terminate]
    exact hcounts
  have hwithin' : Within V p q := by
    rw [hq]
    exact ⟨hwithin.steps.tail (hq ▸ hrecord), hwithin.ways, hwithin.loop, hwithin.here⟩
  have hpending : q.Pending blocks.exit (insert blocks.preheader p.here) := by
    obtain ⟨hway, hlt, hidle, hblank, hpassed⟩ := hs'.exit
    rw [hq]
    exact ⟨.inr rfl, hlt, hidle, hblank, hpassed⟩
  obtain ⟨-, h₁, h₂, h₃, h₄, -⟩ := loopBlocks_order isTested p.function.blocks.length
  have hnew : p.function.blocks.length ≤ blocks.exit :=
    hblocks ▸ (h₁.trans_le (h₂.trans (h₃.trans h₄).le)).le
  refine (walks_continueAt hp hwithin' ?_ hnew hpending ?_).mono ?_
  · rw [hq]
    exact hclosed
  · exact (Set.subset_insert _ _).trans (Set.subset_insert _ _)
  · rintro _ t ⟨ht, hways, hframes_t⟩
    refine ⟨ht, hways, hframes_t.trans ?_⟩
    rw [hq]
    exact hframes

/-! ## Loops without counters -/

theorem walked_whileLoop {isAsync : Bool} {test : Expr} {body : List Expr}
    (htest : Walked V True (expr .operand test)) (hbody : Walked V False (statements body)) :
  Walked V inner (form place id span (.whileLoop isAsync test body))
  := by
  intro c p hp
  simp only [form]
  refine (walks_enterLoop (V := V) hp true).bind fun blocks p₁ hentered => ?_
  obtain ⟨hblocks, h₁, hopen₁, hframes₁, -, hlatch₁, hbody₁, -⟩ := hentered
  refine htest.operand (h₁.within.ready hp hframes₁ hopen₁) (fun v p₂ hp₂ hready₂ hframes₂ => ?_)
    fun p₂ hp₂ hclosed howed => ?_
  · have h₂ := h₁.moves hp.sound hp₂.toMoves fun _ => hopen₁
    refine (walks_enterBody hp h₂ hready₂.isOpen hblocks (hlatch₁.moves hp₂.toMoves)
      ((hbody₁ rfl).moves hp₂.toMoves) v).bind ?_
    rintro _ p₃ ⟨h₃, hopen₃, hframes₃, hlatch₃, -⟩
    have hkept₃ : p₃.state.frames = p.state.frames := by rw [hframes₃, hframes₂, hframes₁]
    refine (walks_inLoop (h₃.within.ready hp hkept₃ hopen₃) hlatch₃.way h₃.exit.way hbody.inScope).bind ?_
    rintro _ p₄ ⟨hp₄, hframes₄⟩
    have h₄ := h₃.moves hp.sound hp₄.toMoves fun _ => hopen₃
    refine (walks_enterLatch hp h₄ hblocks (hlatch₃.moves hp₄.toMoves)).bind ?_
    rintro _ p₅ ⟨h₅, hopen₅, hframes₅, -⟩
    have hkept₅ : p₅.state.frames = p.state.frames := by rw [hframes₅, hframes₄, hkept₃]
    refine .bind_ite (m := fun p₆ => Looping V p blocks p₆ ∧ p₆.state.frames = p.state.frames) (fun _ => ?_)
      (fun _ => ⟨h₅, hkept₅⟩) ?_
    · refine (walks_runtimeCall V (h₅.within.ready hp hkept₅ hopen₅) _ _ _).discard.mono fun _ p₆ hp₆ => ?_
      exact ⟨h₅.moves hp.sound hp₆.toMoves fun _ => hopen₅, hp₆.frames.trans hkept₅⟩
    · rintro p₆ ⟨h₆, hkept₆⟩
      refine (walks_leaveLoop hp h₆ hblocks (by simp)).bind ?_
      rintro _ p₇ ⟨h₇, hways, hframes₇⟩
      have hkept₇ := hframes₇.trans hkept₆
      exact .pure (.none (h₇.leads hp hways hkept₇) fun _ => congrArg _ hkept₇)
  · -- control does not come out of the test
    have h₂ := h₁.within.moves hopen₁ hp₂.toMoves
    refine Walks.pure (p := { p₂ with ways := p.ways }) (.none (h₂.lost hclosed ?_) fun _ => ?_)
    · rw [hp₂.tail, hframes₁]
    · exact howed.trans (congrArg _ hframes₁)

theorem walked_loop {body : List Expr} (hbody : Walked V False (statements body)) :
  Walked V inner (form place id span (.loop body))
  := by
  intro c p hp
  simp only [form]
  refine (walks_enterLoop (V := V) hp false).bind fun blocks p₁ hentered => ?_
  obtain ⟨hblocks, h₁, hopen₁, hframes₁, -, hlatch₁, -, -⟩ := hentered
  refine (walks_inLoop (h₁.within.ready hp hframes₁ hopen₁) hlatch₁.way h₁.exit.way hbody.inScope).bind
    fun _ p₂ ⟨hp₂, hframes₂⟩ => ?_
  have h₂ := h₁.moves hp.sound hp₂.toMoves fun _ => hopen₁
  refine (walks_enterLatch hp h₂ hblocks (hlatch₁.moves hp₂.toMoves)).bind
    fun _ p₃ ⟨h₃, hopen₃, hframes₃, _⟩ => ?_
  refine (walks_leaveLoop hp h₃ hblocks (by simp)).bind fun _ p₄ ⟨h₄, hways, hframes₄⟩ => .pure ?_
  have hkept : p₄.state.frames = p.state.frames := by rw [hframes₄, hframes₃, hframes₂, hframes₁]
  exact .none (h₄.leads hp hways hkept) fun _ => congrArg _ hkept

end

end Lower

end FormCompiler
