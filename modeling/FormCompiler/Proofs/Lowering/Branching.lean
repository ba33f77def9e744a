import FormCompiler.Proofs.Lowering.Walked

/-!
# Walking through conditionals and loops

A form with blocks of its own makes them before anything jumps to them. Until one is entered it is
`Pending`: nothing has been added to it, and it is known which blocks control will have passed. What the
scopes held when the block was made has been stored when control comes to it.
-/

namespace FormCompiler

open FormCompiler.Flow

namespace Spot

variable {V : Expr → Prop} {p q r s : Spot} {id next : BlockId} {since ways : Set BlockId}

/-! ## Blocks that are made -/

/-- A spot on the way from another one, while a form with blocks of its own is made. -/
structure Within (V : Expr → Prop) (p r : Spot) : Prop where
  steps : Steps V p.function p r
  ways : p.ways ⊆ r.ways
  loop : r.state.loop = p.state.loop
  here : r.state.isOpen = true → p.here ⊆ r.here

/-- A block that has been made and will be entered later. -/
structure Pending (p : Spot) (id : BlockId) (since : Set BlockId) : Prop where
  way : id ∈ p.ways
  lt : id < p.function.blocks.length
  idle : p.state.isOpen = true → id ≠ p.state.current
  blank : p.function.IsBlank id
  passed : p.passed id = since

theorem Within.refl (p : Spot) :
  Within V p p
  := ⟨.refl, subset_rfl, rfl, fun _ => subset_rfl⟩

section

variable (h : Within V p r)

include h

theorem Within.grows :
  p.Grows r
  := Steps.grows h.steps

theorem Within.sound (hp : p.Sound) :
  r.Sound
  := Steps.sound h.steps hp

theorem Within.moves (hopen : r.state.isOpen = true) (h' : Moves V r s) :
  Within V p s
  := ⟨h.steps.trans (h'.later h.grows), h'.ways ▸ h.ways, h'.loop.trans h.loop,
    fun hopen' => (h.here hopen).trans (h'.here hopen')⟩

theorem Within.closes (h' : Moves V r s) (hclosed : s.state.isOpen = false) :
  Within V p s
  := ⟨h.steps.trans (h'.later h.grows), h'.ways ▸ h.ways, h'.loop.trans h.loop, by simp [hclosed]⟩

/-- The scopes hold what they held before, so other forms may come. -/
theorem Within.ready (hp : p.Ready) (hframes : r.state.frames = p.state.frames) (hopen : r.state.isOpen = true) :
  r.Ready
  := by
  refine ⟨h.sound hp.sound, hopen, fun frame hframe entry hentry => ?_, fun frame hframe => ?_,
    fun targets htargets => ?_⟩
  · exact (hp.names frame (hframes ▸ hframe) entry hentry).mono h.grows (h.here hopen)
  · exact (hp.exits frame (hframes ▸ hframe)).mono h.grows (h.here hopen)
  · obtain ⟨hlatch, hexit⟩ := hp.targets targets (h.loop ▸ htargets)
    exact ⟨h.ways hlatch, h.ways hexit⟩

theorem Within.leads (hp : p.Ready) (hways : r.ways = p.ways) (hframes : r.state.frames = p.state.frames) :
  Leads V p r
  := .of_frames hp h.steps hways h.loop hframes h.here

theorem Within.addBlock (hp : p.Sound) (hopen : r.state.isOpen = true) :
  Within V p r.addBlock
  := by
  refine ⟨h.steps.tail (.addBlock hopen), h.ways.trans (Set.subset_insert _ _), h.loop, fun _ => ?_⟩
  rw [here_addBlock (h.sound hp).current]
  exact h.here hopen

/-- Control comes to a block, and from there only to some of the others. -/
theorem Within.step_enter (hp : p.Ready) (hclosed : r.state.isOpen = false) (hnew : p.function.blocks.length ≤ id)
    (hid : r.Pending id since) (hsince : p.here ⊆ insert id since)
    (hways : ∀ way ∈ ways, way ∈ r.ways ∧ r.passed way ⊆ insert id since) :
  Step V p.function r (r.enter id (p.ways ∪ ways))
  := by
  refine .enter hclosed hid.way hnew hid.blank fun way hway => ?_
  rw [hid.passed]
  rcases hway with hway | hway
  · obtain ⟨hlt, hpassed⟩ := hp.sound.ways way hway
    rw [h.grows.passed way hlt]
    exact ⟨h.ways hway, (hpassed hp.isOpen).trans hsince⟩
  · exact hways way hway

theorem Within.enter (ways : Set BlockId) (hp : p.Ready) (hclosed : r.state.isOpen = false)
    (hnew : p.function.blocks.length ≤ id) (hid : r.Pending id since) (hsince : p.here ⊆ insert id since)
    (hways : ∀ way ∈ ways, way ∈ r.ways ∧ r.passed way ⊆ insert id since) :
  Within V p (r.enter id (p.ways ∪ ways))
  := by
  refine ⟨h.steps.tail (h.step_enter hp hclosed hnew hid hsince hways), Set.subset_union_left, h.loop, fun _ => ?_⟩
  change p.here ⊆ insert id (r.passed id)
  rwa [hid.passed]

/-- Control goes no further in the blocks of a form. -/
theorem Within.lost (hclosed : r.state.isOpen = false) (htail : r.state.frames.tail = p.state.frames.tail) :
  Leads V p { r with ways := p.ways }
  := by
  have hsame : r.Same { r with ways := p.ways } :=
    ⟨rfl, fun _ => rfl, fun _ => rfl, rfl, rfl, List.prefix_refl _, rfl, rfl, rfl, h.ways⟩
  exact .of_closed (h.steps.tail (.same hsame)) rfl h.loop htail hclosed

end

theorem isBlank_of_length_le {f : Function} (hid : f.blocks.length ≤ id) :
  f.IsBlank id
  := by
  rw [Function.IsBlank, Function.block, List.getD_eq_default _ _ hid]
  exact ⟨rfl, rfl⟩

theorem pending_addBlock (hcurrent : p.state.current < p.function.blocks.length) :
  p.addBlock.Pending p.function.blocks.length p.here
  := by
  refine ⟨Set.mem_insert _ _, ?_, fun _ => hcurrent.ne', ?_, Function.update_self ..⟩
  · rw [length_addBlock]
    exact Nat.lt_succ_self _
  · rw [Function.IsBlank, block_addBlock]
    exact isBlank_of_length_le le_rfl

theorem Pending.addBlock (h : p.Pending id since) :
  p.addBlock.Pending id since
  := by
  refine ⟨Set.mem_insert_of_mem _ h.way, ?_, h.idle, ?_, (Function.update_of_ne h.lt.ne _ _).trans h.passed⟩
  · rw [length_addBlock]
    exact h.lt.trans (Nat.lt_succ_self _)
  · rw [Function.IsBlank, block_addBlock]
    exact h.blank

theorem Pending.moves (h : p.Pending id since) (h' : Moves V p q) :
  q.Pending id since
  := by
  have hrests : p.Rests p.function.blocks.length id :=
    ⟨h.lt, h.idle, fun _ hle => absurd h.lt (Nat.not_lt_of_le hle)⟩
  obtain ⟨hrests', hinstrs, hterminator⟩ := Steps.rests h'.steps le_rfl hrests
  refine ⟨h'.ways ▸ h.way, hrests'.lt, hrests'.idle, ?_, (h'.grows.passed id h.lt).trans h.passed⟩
  rw [Function.IsBlank, hinstrs, hterminator]
  exact h.blank

theorem Pending.enter (h : p.Pending id since) (hne : id ≠ next) (hway : id ∈ ways) :
  (p.enter next ways).Pending id since
  := ⟨hway, h.lt, fun _ => hne, h.blank, h.passed⟩

end Spot

namespace Lower

open Spot

-- the equations of `form` are many, and all lemmas below need them
attribute [local simp] form

section

variable {c : LowerContext} {V : Expr → Prop} {inner : Prop} {p r : Spot} {place : Place} {id : Nat} {span : Span}
  {block join : BlockId} {since ways : Set BlockId}

theorem Walked.imp {α : Type} {inner' : Prop} {action : Lower (Option α)} (h : Walked V inner action)
    (himp : inner' → inner) :
  Walked V inner' action
  := fun c p hp => (h c p hp).mono fun _ _ hq =>
    ⟨hq.leads, hq.isOpen, fun hinner => hq.owed (himp hinner), fun hinner => hq.frames (himp hinner)⟩

/-! ## Blocks -/

theorem walks_freshBlock :
  Walks c p freshBlock fun id q => id = p.function.blocks.length ∧ q = p.addBlock
  := by
  rintro _ _ ⟨⟩
  exact ⟨p.addBlock, rfl, rfl, rfl⟩

theorem walks_enterBlock (id : BlockId) (ways : Set BlockId) :
  Walks c p (enterBlock id) fun _ q => q = p.enter id ways
  := by
  rintro _ _ ⟨⟩
  exact ⟨p.enter id ways, rfl, rfl⟩

theorem walks_end (t : Terminator) :
  Walks c p (terminate t) fun _ q => q = p.terminate t
  := by
  rintro _ _ ⟨⟩
  exact ⟨p.terminate t, rfl, rfl⟩

/-- What follows the end of a block, if control comes to it. -/
theorem Walks.bind_close {β : Type} {t : Terminator} {k : Unit → Lower β} {post : β → Spot → Prop}
    (ht : p.state.isOpen = true → ∀ next ∈ t.successors, next ∈ p.ways)
    (hk : ∀ q, Moves V p q → q.state.isOpen = false → q.state.frames = p.state.frames →
      q.state.current = p.state.current → (∀ id, (q.function.block id).instrs = (p.function.block id).instrs) →
      (p.state.isOpen = true → q = p.terminate t) → Walks c q (k ()) post) :
  Walks c p (isOpen >>= fun b => if b = true then terminate t >>= k else k ()) post
  := by
  refine .bind_isOpen ?_
  cases hopen : p.state.isOpen with
  | false =>
    exact hk p (Leads.of_closed .refl rfl rfl rfl hopen).toMoves hopen rfl rfl (fun _ => rfl)
      fun h => Bool.noConfusion (hopen.symm.trans h)
  | true =>
    refine (walks_end t).bind ?_
    rintro _ _ rfl
    exact hk _ (leads_terminate hopen (ht hopen)).toMoves rfl rfl rfl (fun _ => instrs_terminate t) fun _ => rfl

theorem walks_joinBranch (V : Expr → Prop) (hjoin : join ∈ p.ways) (span : Span) (param value : Option VarId) :
  Walks c p (joinBranch span join param value) fun _ q => Moves V p q ∧ q.state.isOpen = false
    ∧ q.state.frames = p.state.frames
  := by
  refine .bind_isOpen ?_
  cases hopen : p.state.isOpen with
  | false => exact .pure ⟨(Leads.of_closed .refl rfl rfl rfl hopen).toMoves, hopen, rfl⟩
  | true =>
    have hend : ∀ args, Walks c p (terminate (.jump join args)) fun _ q => Moves V p q
        ∧ q.state.isOpen = false ∧ q.state.frames = p.state.frames := fun args =>
      (walks_terminate V hopen (by simpa [Terminator.successors] using hjoin)).mono
        fun _ _ ⟨hq, hq'⟩ => ⟨hq.toMoves, hq'⟩
    cases param with
    | none => exact hend []
    | some _ => exact .bind_required fun v _ => hend [v]

/-- Where a form goes on after its blocks; if nothing goes there, control does not come out. -/
theorem walks_continueAt (hp : p.Ready) (h : Within V p r) (hclosed : r.state.isOpen = false)
    (hnew : p.function.blocks.length ≤ block) (hblock : r.Pending block since)
    (hsince : p.here ⊆ insert block since) :
  Walks c r (continueAt block) fun _ q => Within V p q ∧ q.ways = p.ways ∧ q.state.frames = r.state.frames
  := by
  refine (walks_enterBlock block (p.ways ∪ ∅)).bind ?_
  rintro _ _ rfl
  have hwithin := h.enter ∅ hp hclosed hnew hblock hsince (by simp)
  have hways : (r.enter block (p.ways ∪ ∅)).ways = p.ways := Set.union_empty _
  refine .bind_get ?_
  split
  · exact .pure ⟨hwithin, hways, rfl⟩
  · refine (walks_terminate V rfl (by simp [Terminator.successors])).mono fun _ q ⟨hq, hclosed', hframes⟩ => ?_
    exact ⟨hwithin.closes hq.toMoves hclosed', hq.ways.trans hways, hframes⟩

/-! ## Conditionals -/

/-- A branch of a conditional: control comes to its block, and goes on where the branches join. -/
theorem walks_arm (ways : Set BlockId) (hp : p.Ready) (h : Within V p r)
    (hframes : r.state.frames = p.state.frames) (hclosed : r.state.isOpen = false) (hnew : p.function.blocks.length ≤ block)
    (hblock : r.Pending block p.here) (hways : ∀ way ∈ ways, way ≠ block ∧ r.Pending way p.here)
    (hjoin : join ∈ ways) {action : Lower (Option VarId)} (haction : WalkedInScope V action)
    (param : Option VarId) :
  Walks c r (do
      enterBlock block
      joinBranch span join param (← action))
    fun _ q => Within V p q ∧ q.state.frames = p.state.frames ∧ q.state.isOpen = false
      ∧ ∀ way ∈ ways, q.Pending way p.here
  := by
  refine (walks_enterBlock block (p.ways ∪ ways)).bind ?_
  rintro _ _ rfl
  have hentered := h.enter ways hp hclosed hnew hblock (Set.subset_insert _ _) fun way hway =>
    ⟨(hways way hway).2.way, (hways way hway).2.passed ▸ Set.subset_insert _ _⟩
  refine (haction c _ (hentered.ready hp hframes rfl)).bind fun value s ⟨hs, hframes_s, _⟩ => ?_
  have hwithin := hentered.moves rfl hs.toMoves
  refine (walks_joinBranch V ?_ span param value).mono fun _ t ⟨ht, hclosed_t, hframes_t⟩ => ?_
  · rw [hs.ways]
    exact .inr hjoin
  · refine ⟨hwithin.closes ht hclosed_t, hframes_t.trans (hframes_s.trans hframes), hclosed_t, fun way hway => ?_⟩
    exact (((hways way hway).2.enter (hways way hway).1 (.inr hway)).moves hs.toMoves).moves ht

/-- The two branches of a conditional and what follows them. -/
theorem walks_arms (hp : p.Ready) (span : Span) (test : VarId) (t : ValueType)
    {thenAction elseAction : Lower (Option VarId)} (hthen : WalkedInScope V thenAction)
    (helse : WalkedInScope V elseAction) :
  Walks c p (do
      let thenBlock ← freshBlock
      let elseBlock ← freshBlock
      let join ← freshBlock
      let param ← if t.isNone then pure none else some <$> blockParam join t
      terminate (.branch test thenBlock elseBlock)
      enterBlock thenBlock
      joinBranch span join param (← thenAction)
      enterBlock elseBlock
      joinBranch span join param (← elseAction)
      continueAt join
      return if ← isOpen then param else none)
    fun value q => Leads V p q ∧ q.state.frames = p.state.frames
      ∧ (value.isSome = true → q.state.isOpen = true)
  := by
  have h₁ := (Within.refl (V := V) p).addBlock hp.sound hp.isOpen
  have h₂ := h₁.addBlock hp.sound hp.isOpen
  have h₃ := h₂.addBlock hp.sound hp.isOpen
  have hhere₁ := here_addBlock hp.sound.current
  have hhere₂ := here_addBlock (h₁.sound hp.sound).current
  refine walks_freshBlock.bind ?_
  rintro thenBlock _ ⟨hthenBlock, rfl⟩
  refine walks_freshBlock.bind ?_
  rintro elseBlock _ ⟨helseBlock, rfl⟩
  refine walks_freshBlock.bind ?_
  rintro join _ ⟨hjoinBlock, rfl⟩
  have hthenPending : p.addBlock.addBlock.addBlock.Pending thenBlock p.here :=
    hthenBlock ▸ ((pending_addBlock hp.sound.current).addBlock).addBlock
  have helsePending : p.addBlock.addBlock.addBlock.Pending elseBlock p.here :=
    hhere₁ ▸ helseBlock ▸ (pending_addBlock (h₁.sound hp.sound).current).addBlock
  have hjoinPending : p.addBlock.addBlock.addBlock.Pending join p.here :=
    hhere₁ ▸ hhere₂ ▸ hjoinBlock ▸ pending_addBlock (h₂.sound hp.sound).current
  rw [length_addBlock, ← hthenBlock] at helseBlock
  rw [length_addBlock, length_addBlock, ← hthenBlock, ← helseBlock] at hjoinBlock
  have hlt₁ : thenBlock < elseBlock := helseBlock ▸ Nat.lt_succ_self _
  have hlt₂ : elseBlock < join := hjoinBlock ▸ Nat.lt_succ_self _
  -- what follows is the same with a parameter and without one
  have hrest : ∀ param s, Straight V p.addBlock.addBlock.addBlock s → Walks c s (do
      terminate (.branch test thenBlock elseBlock)
      (do enterBlock thenBlock
          joinBranch span join param (← thenAction))
      (do enterBlock elseBlock
          joinBranch span join param (← elseAction))
      continueAt join
      return if ← isOpen then param else none) fun value q => Leads V p q ∧ q.state.frames = p.state.frames
        ∧ (value.isSome = true → q.state.isOpen = true) := by
    intro param s hs
    have hmoves := hs.toMoves
    refine (walks_terminate V hs.isOpen fun next hnext => ?_).bind fun _ s₁ ⟨hs₁, hclosed₁, hframes₁⟩ => ?_
    · rcases List.mem_pair.mp hnext with rfl | rfl
      · exact (hthenPending.moves hmoves).way
      · exact (helsePending.moves hmoves).way
    have hwithin₁ := (h₃.moves hp.isOpen hmoves).closes hs₁.toMoves hclosed₁
    refine (walks_arm {elseBlock, join} hp hwithin₁ (hframes₁.trans hs.frames) hclosed₁ hthenBlock.ge
      ((hthenPending.moves hmoves).moves hs₁.toMoves) ?_ (.inr rfl) hthen param).bind
      fun _ s₂ ⟨hwithin₂, hframes₂, hclosed₂, hpending₂⟩ => ?_
    · rintro way (rfl | rfl)
      · exact ⟨hlt₁.ne', (helsePending.moves hmoves).moves hs₁.toMoves⟩
      · exact ⟨(hlt₁.trans hlt₂).ne', (hjoinPending.moves hmoves).moves hs₁.toMoves⟩
    refine (walks_arm {join} hp hwithin₂ hframes₂ hclosed₂ (hthenBlock.ge.trans hlt₁.le)
      (hpending₂ elseBlock (.inl rfl)) ?_ rfl helse param).bind
      fun _ s₃ ⟨hwithin₃, hframes₃, hclosed₃, hpending₃⟩ => ?_
    · rintro way rfl
      exact ⟨hlt₂.ne', hpending₂ _ (.inr rfl)⟩
    refine (walks_continueAt hp hwithin₃ hclosed₃ (hthenBlock.ge.trans (hlt₁.trans hlt₂).le)
      (hpending₃ join rfl) (Set.subset_insert _ _)).bind
      fun _ s₄ ⟨hwithin₄, hways₄, hframes₄⟩ => .bind_isOpen (.pure ?_)
    have hframes := hframes₄.trans hframes₃
    refine ⟨hwithin₄.leads hp hways₄ hframes, hframes, fun hvalue => ?_⟩
    by_contra hopen
    simp [hopen] at hvalue
  simp only [bind_assoc] at hrest
  have hready := h₃.ready hp rfl hp.isOpen
  dsimp only
  split
  · exact hrest none _ (.refl hready)
  · rw [map_eq_pure_bind, bind_assoc]
    exact (walks_blockParam V hready join t).bind fun v s hs => hrest (some v) s hs

theorem walkedInScope_branch_none :
  WalkedInScope V (branch none)
  := by
  intro c p hp
  simp only [branch]
  exact .pure ⟨(Straight.refl hp).toLeads, rfl, by simp⟩

theorem walked_cond {isCheck : Bool} {test thenBranch : Expr} {elseBranch : Option Expr}
    (htest : Walked V True (expr .operand test)) (hthen : Walked V False (expr (.statement [] true) thenBranch))
    (helse : WalkedInScope V (branch elseBranch)) :
  Walked V inner (form place id span (.cond isCheck test thenBranch elseBranch))
  := by
  intro c p hp
  simp only [form]
  refine htest.operand hp (fun v q hq hready hframes => ?_) fun q hq _ howed => .pure (.none hq fun _ => howed)
  have hyields : ∀ {value : Option VarId} {r}, Leads V q r ∧ r.state.frames = q.state.frames
      ∧ (value.isSome = true → r.state.isOpen = true) → Yields V inner p value r := by
    rintro value r ⟨hr, hframes_r, hopen⟩
    have hafter : Yields V inner q value r := ⟨hr, hopen, fun _ => congrArg _ hframes_r, fun _ _ => hframes_r⟩
    exact hafter.after hq hready.isOpen hframes
  have hrest := fun t => (walks_arms (c := c) hready span v t hthen.inScope helse).mono fun _ _ => hyields
  cases elseBranch with
  | none =>
    simp only [Option.isSome_none, Bool.false_eq_true, if_false]
    rw [pure_bind]
    exact hrest .none
  | some e => exact .bind_reads (reads_typeOf id span) hrest

end

end Lower

end FormCompiler
