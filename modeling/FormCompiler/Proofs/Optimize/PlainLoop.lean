import FormCompiler.Optimize.Unroll
import FormCompiler.Proofs.Flow.Replace
import FormCompiler.Proofs.Flow.Strides
import FormCompiler.Proofs.Flow.Uses

/-!
# Plain loops

A loop is *plain* if its blocks are a header that only computes a test, a body and a latch. As long as
the test succeeds, a round of such a loop is the same as the instructions of its blocks, one after the
other. If there are `n` rounds left, then `n` rounds are these instructions `n` times
(`CountsDown.steps_rounds`).
-/

namespace FormCompiler.Flow

open Verify (IsSite IsDefinedAt Site)

/-- A loop whose blocks are a header that only computes a test, a body and a latch. -/
structure LoopInfo.IsPlain (f : Function) (l : LoopInfo) (test : VarId) (body : BlockId) : Prop where
  blocks : ∀ id, id ∈ l.blocks ↔ id = l.header ∨ id = body ∨ id = l.latch
  branch : (f.block l.header).terminator = .branch test body l.exit
  toLatch : (f.block body).terminator = .jump l.latch []
  back : (f.block l.latch).terminator = .jump l.header []
  ne : body ≠ l.latch
  params : ∀ id ∈ l.blocks, (f.block id).params = []
  pure : ∀ i ∈ (f.block l.header).instrs, i.isPure = true

/-- Three blocks that are all in a list of three are all that is in it. -/
theorem mem_iff_of_length_eq_three {blocks : List BlockId} {a b c : BlockId} (hlength : blocks.length = 3)
    (ha : a ∈ blocks) (hb : b ∈ blocks) (hc : c ∈ blocks) (hab : a ≠ b) (hac : a ≠ c) (hbc : b ≠ c)
    (id : BlockId) :
  id ∈ blocks ↔ id = a ∨ id = b ∨ id = c
  := by
  have hnodup : [a, b, c].Nodup := by simp [hab, hac, hbc]
  have hsubset : [a, b, c] ⊆ blocks := by
    intro x hx
    simp only [List.mem_cons, List.not_mem_nil, or_false] at hx
    rcases hx with rfl | rfl | rfl <;> assumption
  have hperm := (hnodup.subperm hsubset).perm_of_length_le (by simp [hlength])
  rw [← hperm.mem_iff]
  simp

/-- What the check for plain loops finds out. -/
theorem Unroll.isPlain_of_isPlain {f : Function} {l : LoopInfo} {test : VarId} {body elseBlock : BlockId}
    (hbranch : (f.block l.header).terminator = .branch test body elseBlock)
    (h : Unroll.isPlain f l body elseBlock = true) :
  l.IsPlain f test body
  := by
  simp only [Unroll.isPlain, Bool.and_eq_true, beq_iff_eq, bne_iff_ne, ne_eq, List.all_cons,
    List.all_nil, Bool.and_true, List.contains_eq_mem, decide_eq_true_eq, List.isEmpty_iff,
    List.all_eq_true] at h
  obtain ⟨⟨⟨⟨⟨⟨⟨⟨rfl, hlength⟩, hheader, hbody, hlatch⟩, hne⟩, -⟩, hparams⟩, hto⟩, hback⟩, hpure⟩ := h
  have hhb : l.header ≠ body := by
    intro heq
    rw [← heq, hbranch] at hto
    cases hto
  have hhl : l.header ≠ l.latch := by
    intro heq
    rw [← heq, hbranch] at hback
    cases hback
  have hblocks := mem_iff_of_length_eq_three hlength hheader hbody hlatch hhb hhl hne
  refine ⟨hblocks, hbranch, hto, hback, hne, fun id hid => ?_, hpure⟩
  rcases (hblocks id).mp hid with rfl | rfl | rfl
  · exact hparams.1
  · exact hparams.2.1
  · exact hparams.2.2

namespace LoopInfo.IsPlain

variable {f : Function} {l l' : LoopInfo} {test test' : VarId} {body body' d : BlockId}

variable (h : l.IsPlain f test body)

include h

theorem header_mem :
  l.header ∈ l.blocks
  := (h.blocks _).mpr (.inl rfl)

theorem body_mem :
  body ∈ l.blocks
  := (h.blocks _).mpr (.inr (.inl rfl))

theorem latch_mem :
  l.latch ∈ l.blocks
  := (h.blocks _).mpr (.inr (.inr rfl))

/-- Of the blocks of a plain loop, only the header ends with a branch. -/
theorem eq_header (hd : d ∈ l.blocks) {v : VarId} {a b : BlockId} (hbranch : (f.block d).terminator = .branch v a b) :
  d = l.header
  := by
  rcases (h.blocks d).mp hd with rfl | rfl | rfl
  · rfl
  · rw [h.toLatch] at hbranch
    cases hbranch
  · rw [h.back] at hbranch
    cases hbranch

/-- The other blocks jump to blocks of the loop. -/
theorem jump_mem (hd : d ∈ l.blocks) {next : BlockId} {args : List VarId}
    (hjump : (f.block d).terminator = .jump next args) :
  next ∈ l.blocks ∧ (d = l.latch → next = l.header) ∧ (d = body → next = l.latch)
  := by
  rcases (h.blocks d).mp hd with rfl | rfl | rfl
  · rw [h.branch] at hjump
    cases hjump
  · rw [h.toLatch] at hjump
    cases hjump
    exact ⟨h.latch_mem, fun heq => absurd heq h.ne, fun _ => rfl⟩
  · rw [h.back] at hjump
    cases hjump
    exact ⟨h.header_mem, fun _ => rfl, fun heq => absurd heq.symm h.ne⟩

/-- A block of a plain loop that is left for the header of another one is the header. -/
theorem not_mem_of_jump (h' : l'.IsPlain f test' body') (hne : l'.header ≠ l.header) {args : List VarId}
    (hjump : (f.block d).terminator = .jump l'.header args) :
  d ∉ l.blocks
  := by
  intro hd
  exact hne (h.eq_header (h.jump_mem hd hjump).1 h'.branch)

/-- Plain loops with different headers have no block in common. -/
theorem disjoint (h' : l'.IsPlain f test' body') (hne : l'.header ≠ l.header) (hd : d ∈ l.blocks) :
  d ∉ l'.blocks
  := by
  intro hd'
  have hheader : l'.header ∉ l.blocks := fun hmem => hne (h.eq_header hmem h'.branch)
  rcases (h'.blocks d).mp hd' with rfl | rfl | rfl
  · exact hheader hd
  · -- From the body of the one loop, control would get to the header in two jumps.
    have hlatch := (h.jump_mem hd h'.toLatch).1
    exact hheader (h.jump_mem hlatch h'.back).1
  · exact hheader (h.jump_mem hd h'.back).1

end LoopInfo.IsPlain

/-! ## Loops that can be unrolled -/

/-- A plain loop of a well-formed function, of whose variables nothing is read outside. -/
structure Unrollable (f : Function) (l : LoopInfo) (test : VarId) (body : BlockId) : Prop where
  verify : f.verify = .ok ()
  plain : l.IsPlain f test body
  wellFormed : l.IsWellFormed f
  entry : f.entry ∉ l.blocks
  exit : l.exit ∉ l.blocks
  header : l.header ∈ f.reversePostorder
  own : ∀ id ∉ l.blocks, ∀ v ∈ (f.block id).uses, ∀ d ∈ l.blocks, v ∉ (f.block d).defs

/-- The instructions of a round, after the test. -/
def LoopInfo.round (f : Function) (l : LoopInfo) (body : BlockId) : List Instr :=
  (f.block body).instrs ++ (f.block l.latch).instrs

/-- The instructions of a round, with the test. -/
def LoopInfo.wholeRound (f : Function) (l : LoopInfo) (body : BlockId) : List Instr :=
  (f.block l.header).instrs ++ l.round f body

namespace Unrollable

variable {f : Function} {l : LoopInfo} {test : VarId} {body d : BlockId} {v : VarId}
variable {position : Nat}

section

variable (h : Unrollable f l test body)

include h

theorem ssa :
  f.IsSsa
  := Function.isSsa_of_verify h.verify

theorem body_ne :
  body ≠ l.header
  := by
  intro heq
  have hto := h.plain.toLatch
  rw [heq, h.plain.branch] at hto
  cases hto

theorem latch_ne :
  l.latch ≠ l.header
  := by
  intro heq
  have hback := h.plain.back
  rw [heq, h.plain.branch] at hback
  cases hback

theorem preheader_ne (hd : d ∈ l.blocks) :
  d ≠ l.preheader
  := by
  rintro rfl
  exact h.wellFormed.outside hd

theorem preheader_lt :
  l.preheader < f.blocks.length
  := by
  by_contra hge
  have hnext := h.wellFormed.header_mem_successors
  rw [Function.successors_eq_nil (Nat.le_of_not_lt hge)] at hnext
  cases hnext

/-- The jump into the loop passes nothing. -/
theorem jump :
  (f.block l.preheader).terminator = .jump l.header []
  := by
  obtain ⟨args, hjump⟩ := h.wellFormed.jump
  have hlength := (h.ssa.jump (Function.getElem?_of_lt h.preheader_lt) hjump).2
  rw [h.plain.params _ h.plain.header_mem] at hlength
  rw [hjump, List.eq_nil_of_length_eq_zero hlength.symm]

theorem body_mem_successors :
  body ∈ f.successors l.header
  := by
  simp [Function.successors, h.plain.branch, Terminator.successors]

theorem exit_mem_successors :
  l.exit ∈ f.successors l.header
  := by
  simp [Function.successors, h.plain.branch, Terminator.successors]

theorem latch_mem_successors :
  l.latch ∈ f.successors body
  := by
  simp [Function.successors, h.plain.toLatch, Terminator.successors]

/-- As the header is reached, so are the preheader and the other blocks. -/
theorem preheader :
  l.preheader ∈ f.reversePostorder
  := h.wellFormed.preheader_mem h.entry h.plain.header_mem h.header

theorem reached (hd : d ∈ l.blocks) :
  d ∈ f.reversePostorder
  := by
  have hheader := h.header
  have hbody := Function.mem_reversePostorder_of_successor hheader h.body_mem_successors
  have hlatch := Function.mem_reversePostorder_of_successor hbody h.latch_mem_successors
  rcases (h.plain.blocks d).mp hd with rfl | rfl | rfl <;> assumption

/-! ### What is defined -/

/-- What is defined at the start of a block without parameters is known there, and vice versa. -/
theorem isKnown_iff (hd : d ∈ f.reversePostorder) :
  IsKnown f d v ↔ IsDefinedAt f d 0 v
  := by
  rw [isDefinedAt_iff (h.ssa.getElem?_block hd)]
  simp

/-- A variable is defined at the end of a block if it was at the start, or if the block defines it. -/
theorem isDefinedAt_end (hd : d ∈ f.reversePostorder) (hv : IsDefinedAt f d (f.block d).instrs.length v) :
  IsDefinedAt f d 0 v ∨ ∃ i ∈ (f.block d).instrs, i.def? = some v
  := by
  rcases (isDefinedAt_iff (h.ssa.getElem?_block hd)).mp hv with hknown | ⟨k, -, i, hi, hdef⟩
  · exact .inl ((h.isKnown_iff hd).mp hknown)
  · exact .inr ⟨i, List.mem_of_getElem? hi, hdef⟩

/-- What is defined when a block of the loop is entered was defined at the end of the block before. -/
theorem isDefinedAt_before {next : BlockId} (hd : d ∈ f.reversePostorder) (hnext : next ∈ f.successors d)
    (hmem : next ∈ l.blocks) (hv : IsDefinedAt f next 0 v) :
  IsDefinedAt f d (f.block d).instrs.length v
  := by
  have hbefore := hv.of_successor hd hnext (h.ssa.getElem?_block hd)
  rw [h.plain.params next hmem, ← Block.length_instrs] at hbefore
  exact hbefore.resolve_left List.not_mem_nil

/-- A round reads what is defined when the test has succeeded. -/
theorem scoped_round :
  Scoped (IsDefinedAt f l.header (f.block l.header).instrs.length) (l.round f body) []
  := by
  have hbody := h.reached h.plain.body_mem
  have hlatch := h.reached h.plain.latch_mem
  rw [LoopInfo.round, scoped_append]
  constructor
  · have hscoped := h.ssa.scoped hbody
    rw [h.plain.toLatch] at hscoped
    refine hscoped.mono fun v hv => ?_
    rw [h.isKnown_iff hbody] at hv
    exact h.isDefinedAt_before h.header h.body_mem_successors h.plain.body_mem hv
  · have hscoped := h.ssa.scoped hlatch
    rw [h.plain.back] at hscoped
    refine hscoped.mono fun v hv => ?_
    rw [h.isKnown_iff hlatch] at hv
    have hend := h.isDefinedAt_before hbody h.latch_mem_successors h.plain.latch_mem hv
    refine (h.isDefinedAt_end hbody hend).imp_left fun hstart => ?_
    exact h.isDefinedAt_before h.header h.body_mem_successors h.plain.body_mem hstart

/-- A round with the test reads what is defined when the header is entered. -/
theorem scoped_wholeRound :
  Scoped (IsDefinedAt f l.header 0) (l.wholeRound f body) []
  := by
  rw [LoopInfo.wholeRound, scoped_append]
  constructor
  · have hscoped := scoped_iff.mp (h.ssa.scoped h.header)
    refine (scoped_iff.mpr ⟨hscoped.1, by simp⟩).mono fun v hv => ?_
    exact (h.isKnown_iff h.header).mp hv
  · exact (h.scoped_round).mono fun v hv => h.isDefinedAt_end h.header hv

/-- Of the loop, at most the header has defined something when the test has succeeded. -/
theorem not_mem_defs (hv : IsDefinedAt f l.header position v) (hd : d ∈ l.blocks) (hne : d ≠ l.header) :
  v ∉ (f.block d).defs
  := by
  intro hdef
  obtain ⟨site, rfl, hsite⟩ := mem_defs_iff.mp hdef
  obtain ⟨site', hsite', hwhere⟩ := hv
  obtain rfl := h.ssa.unique hsite' hsite
  have hdominates := (hwhere.resolve_left fun hhere => hne hhere.1).2
  -- The header is entered from the preheader before control has been in any other block of the loop.
  obtain ⟨-, hnot⟩ := (Function.dominates_iff.mp hdominates).resolve_left hne
  have hbefore := (h.wellFormed.reaches_preheader h.entry h.plain.header_mem h.header).mono
    (show ∀ x ∈ [site'.block], x ∈ l.blocks by simpa using hd)
  exact hnot (hbefore.step h.wellFormed.header_mem_successors (by simpa using hne.symm))

/-- Control comes to the body from the header only. -/
theorem header_dominates_body :
  f.dominates l.header body = true
  := by
  refine Function.dominates_iff.mpr (.inr ⟨h.reached h.plain.body_mem, fun hreaches => ?_⟩)
  cases hreaches with
  | entry => exact h.entry h.plain.body_mem
  | @step a _ ha hnext _ =>
    by_cases hmem : a ∈ l.blocks
    · rcases (h.plain.blocks a).mp hmem with rfl | rfl | rfl
      · exact Function.not_mem_of_reaches ha (by simp)
      · rw [Function.successors, h.plain.toLatch, Terminator.successors, List.mem_singleton] at hnext
        exact h.plain.ne hnext
      · rw [Function.successors, h.plain.back, Terminator.successors, List.mem_singleton] at hnext
        exact h.body_ne hnext
    · exact h.body_ne (h.wellFormed.edge a body hmem h.plain.body_mem hnext).2

/-- What is defined when the test has succeeded is defined when the body is entered. -/
theorem isDefinedAt_body (hv : IsDefinedAt f l.header position v) :
  IsDefinedAt f body 0 v
  := by
  have hbody := h.not_mem_defs hv h.plain.body_mem h.body_ne
  obtain ⟨site, hsite, hwhere⟩ := hv
  refine ⟨site, hsite, .inr ⟨fun heq => hbody (mem_defs_iff.mpr ⟨site, heq, hsite⟩), ?_⟩⟩
  rcases hwhere with ⟨heq, -⟩ | ⟨-, hdominates⟩
  · exact heq ▸ h.header_dominates_body
  · exact Function.dominates_trans hdominates h.header_dominates_body

/-- The header reads nothing that the other blocks define. -/
theorem not_mem_defs_of_uses (hv : v ∈ (f.block l.header).uses) (hd : d ∈ l.blocks) (hne : d ≠ l.header) :
  v ∉ (f.block d).defs
  := by
  have hblock := h.ssa.getElem?_block h.header
  rcases List.mem_append.mp hv with hv | hv
  · obtain ⟨i, hi, hv⟩ := List.mem_flatMap.mp hv
    obtain ⟨j, hj⟩ := List.getElem?_of_mem hi
    exact h.not_mem_defs (h.ssa.isDefinedAt_of_mem_uses h.header hblock hj hv) hd hne
  · exact h.not_mem_defs (h.ssa.isDefinedAt_of_mem_terminator h.header hblock hv) hd hne

/-- When the header is entered, nothing of the loop is defined. -/
theorem not_mem_defs_start (hv : IsDefinedAt f l.header 0 v) (hd : d ∈ l.blocks) :
  v ∉ (f.block d).defs
  := by
  by_cases heq : d = l.header
  · subst heq
    intro hdef
    rw [Block.defs, h.plain.params _ hd, List.nil_append] at hdef
    obtain ⟨i, hi, hdef⟩ := List.mem_filterMap.mp hdef
    obtain ⟨j, hj⟩ := List.getElem?_of_mem hi
    exact h.ssa.def?_ne (h.ssa.getElem?_block h.header) hj (hv.mono (Nat.zero_le j)) hdef
  · exact h.not_mem_defs hv hd heq

/-- Nor is it at the end of the preheader. -/
theorem not_isDefinedAt_preheader (hd : d ∈ l.blocks) (hv : v ∈ (f.block d).defs) :
  ¬IsDefinedAt f l.preheader position v
  := by
  rintro ⟨site', hsite', hwhere⟩
  obtain ⟨site, rfl, hsite⟩ := mem_defs_iff.mp hv
  obtain rfl := h.ssa.unique hsite' hsite
  rcases hwhere with ⟨heq, -⟩ | ⟨-, hdominates⟩
  · exact h.preheader_ne hd heq
  · have hnot := h.wellFormed.not_dominates_preheader h.entry hd (h.reached hd)
    rw [hnot] at hdominates
    cases hdominates

end

theorem mem_defs_of_mem_round {i : Instr} (hi : i ∈ l.round f body) (hdef : i.def? = some v) :
  v ∈ (f.block body).defs ∨ v ∈ (f.block l.latch).defs
  := by
  have hdefs : ∀ {d}, i ∈ (f.block d).instrs → v ∈ (f.block d).defs := fun hi =>
    List.mem_append_right _ (List.mem_filterMap.mpr ⟨i, hi, hdef⟩)
  exact (List.mem_append.mp hi).imp hdefs hdefs

theorem mem_defs_of_mem_wholeRound (h : Unrollable f l test body) {i : Instr}
    (hi : i ∈ l.wholeRound f body) (hdef : i.def? = some v) :
  ∃ d ∈ l.blocks, v ∈ (f.block d).defs
  := by
  rcases List.mem_append.mp hi with hi | hi
  · exact ⟨_, h.plain.header_mem, List.mem_append_right _ (List.mem_filterMap.mpr ⟨i, hi, hdef⟩)⟩
  · rcases mem_defs_of_mem_round hi hdef with hv | hv
    · exact ⟨_, h.plain.body_mem, hv⟩
    · exact ⟨_, h.plain.latch_mem, hv⟩

/-- What a round reads is read by a block of the loop. -/
theorem mem_uses_of_mem_wholeRound (h : Unrollable f l test body) {i : Instr}
    (hi : i ∈ l.wholeRound f body) (hv : v ∈ i.uses) :
  ∃ d ∈ l.blocks, v ∈ (f.block d).uses
  := by
  have huses : ∀ {d}, i ∈ (f.block d).instrs → v ∈ (f.block d).uses := fun hi =>
    List.mem_append_left _ (List.mem_flatMap.mpr ⟨i, hi, hv⟩)
  simp only [LoopInfo.wholeRound, LoopInfo.round, List.mem_append] at hi
  rcases hi with hi | hi | hi
  · exact ⟨_, h.plain.header_mem, huses hi⟩
  · exact ⟨_, h.plain.body_mem, huses hi⟩
  · exact ⟨_, h.plain.latch_mem, huses hi⟩

end Unrollable

/-! ## Rounds -/

/-- Instructions without effects do not stop, and change no slot. -/
theorem runAll_of_isPure {W : World} {calls : Caller} {type : VarId → ValueType} {instrs : List Instr}
    (hpure : ∀ i ∈ instrs, i.isPure = true) (s : State) :
  ∃ s', runAll W calls type instrs s = .ok s' ∧ s'.store = s.store
  := by
  induction instrs generalizing s with
  | nil => exact ⟨s, rfl, rfl⟩
  | cons i rest ih =>
    obtain ⟨x, hact⟩ := Instr.act_of_isPure (hpure i (by simp)) W calls type s.vars s.store
    have hrun : i.run W calls type s = .ok ⟨setVar s.vars i.def? x, s.store⟩ :=
      Instr.run_eq_ok.mpr ⟨x, s.store, hact, rfl⟩
    obtain ⟨s', hrest, hstore⟩ := ih (fun i hi => hpure i (by simp [hi])) ⟨setVar s.vars i.def? x, s.store⟩
    refine ⟨s', ?_, hstore⟩
    rw [runAll_cons, hrun]
    exact hrest

/-- A jump to a block without parameters changes nothing. -/
theorem Terminator.run_jump_nil {f : Function} {target : BlockId} (hparams : (f.block target).params = [])
    (s : State) :
  (Terminator.jump target []).run f s = .ok (target, s)
  := by
  simp only [Terminator.run, hparams]
  rfl

/--
A loop that runs as often as `left` says: `left m` is true of what slots hold when the header is
entered, or left for the body, if there are `m` rounds left. When the loop is entered, there are `n`.
-/
structure CountsDown (W : World) (f : Function) (l : LoopInfo) (test : VarId) (body : BlockId)
    (left : Nat → Store → Prop) (n : Nat) : Prop where
  start : ∀ s, Gets W f l.preheader (f.block l.preheader).instrs.length s → left n s.store
  test : ∀ s m, Gets W f l.header (f.block l.header).instrs.length s → left m s.store →
    (s.vars test).isTrue = decide (0 < m)
  round : ∀ s s' m, Gets W f body 0 s → left (m + 1) s.store →
    runAll W W.caller f.varType (l.round f body) s = .ok s' → left m s'.store

namespace CountsDown

variable {W : World} {f : Function} {l : LoopInfo} {test : VarId} {body : BlockId}
  {left : Nat → Store → Prop} {n : Nat} {s : State}
variable {m k : Nat}

/-- The header runs, and the test tells whether a round is left. -/
theorem step_header (hc : CountsDown W f l test body left n) (h : Unrollable f l test body)
    (hs : Gets W f l.header 0 s) (hleft : left m s.store) :
  ∃ s₁, runAll W W.caller f.varType (f.block l.header).instrs s = .ok s₁ ∧ s₁.store = s.store
    ∧ f.step W W.caller (l.header, s) = .ok (if 0 < m then body else l.exit, s₁)
  := by
  obtain ⟨s₁, hrun, hstore⟩ := @runAll_of_isPure W W.caller f.varType _ h.plain.pure s
  have htest := hc.test s₁ m (hs.runBody hrun) (by rwa [hstore])
  refine ⟨s₁, hrun, hstore, ?_⟩
  unfold Function.step
  simp only [hrun, h.plain.branch]
  change Terminator.run f s₁ (.branch test body l.exit) = _
  simp only [Terminator.run, htest, decide_eq_true_eq]

/-- The body and the latch run one after the other, and control is back at the header. -/
theorem steps_body (hp : l.IsPlain f test body) (s : State) :
  steps (f.step W W.caller) 2 (body, s)
    = runAll W W.caller f.varType (l.round f body) s >>= fun s' => .ok (l.header, s')
  := by
  have hjump : ∀ {target}, target ∈ l.blocks → ∀ s', (Terminator.jump target []).run f s' = .ok (target, s') :=
    fun htarget => Terminator.run_jump_nil (hp.params _ htarget)
  rw [steps, show steps (f.step W W.caller) 1 = f.step W W.caller from funext (steps_one _)]
  simp only [Function.step, LoopInfo.round, runAll_append, hp.toLatch]
  cases runAll W W.caller f.varType (f.block body).instrs s with
  | error stop => rfl
  | ok s' =>
    change ((Terminator.jump l.latch []).run f s' >>= _) = (runAll W W.caller f.varType _ s' >>= _)
    rw [hjump hp.latch_mem]
    change (runAll W W.caller f.varType (f.block l.latch).instrs s' >>= _) = _
    refine congrArg _ (funext fun s'' => ?_)
    simp only [hp.back]
    exact hjump hp.header_mem s''

variable (hc : CountsDown W f l test body left n)

include hc

/-- A round, if one is left. -/
theorem steps_round (h : Unrollable f l test body) (hs : Gets W f l.header 0 s) (hleft : left (m + 1) s.store) :
  steps (f.step W W.caller) 3 (l.header, s)
      = runAll W W.caller f.varType (l.wholeRound f body) s >>= (fun s' => .ok (l.header, s'))
    ∧ ∀ s', runAll W W.caller f.varType (l.wholeRound f body) s = .ok s' → left m s'.store
  := by
  obtain ⟨s₁, hrun, hstore, hstep⟩ := hc.step_header h hs hleft
  rw [if_pos (Nat.succ_pos m)] at hstep
  have hbody : Gets W f body 0 s₁ := hs.step hstep
  rw [LoopInfo.wholeRound, runAll_append, hrun]
  constructor
  · rw [steps, hstep]
    exact steps_body h.plain s₁
  · intro s' hs'
    exact hc.round s₁ s' m hbody (hstore ▸ hleft) hs'

/-- Some rounds, if so many are left, are the instructions of a round so many times. -/
theorem steps_rounds (h : Unrollable f l test body) (hs : Gets W f l.header 0 s) (hleft : left (m + k) s.store) :
  steps (f.step W W.caller) (3 * k) (l.header, s)
      = runAll W W.caller f.varType (List.replicate k (l.wholeRound f body)).flatten s
        >>= (fun s' => .ok (l.header, s'))
    ∧ ∀ s', runAll W W.caller f.varType (List.replicate k (l.wholeRound f body)).flatten s = .ok s' →
      left m s'.store
  := by
  induction k generalizing s with
  | zero =>
    refine ⟨rfl, fun s' hs' => ?_⟩
    cases hs'
    exact hleft
  | succ k ih =>
    obtain ⟨hround, hleft'⟩ := hc.steps_round h hs hleft
    rw [List.replicate_succ, List.flatten_cons, runAll_append, show 3 * (k + 1) = 3 + 3 * k by omega,
      steps_add, hround]
    cases hrun : runAll W W.caller f.varType (l.wholeRound f body) s with
    | error stop => exact ⟨rfl, fun s' hs' => by cases hs'⟩
    | ok s₁ =>
      rw [hrun] at hround
      exact ih (hs.steps hround) (hleft' s₁ hrun)

/-- A loop runs as often in another function if its blocks are the same there. -/
theorem transfer {g : Function} {hidden : VarId → Prop} {meeting : Point → Prop} {inner : BlockId → Prop}
    (hs : Strides W f g hidden meeting inner) (hf : f.IsSsa) (hp : l.IsPlain f test body)
    (hsame : ∀ d ∈ l.blocks, SameBlock f g hidden d ∧ ¬inner d)
    (hstart : ∀ t, Gets W g l.preheader (g.block l.preheader).instrs.length t → left k t.store) :
  CountsDown W g l test body left k
  where
  start := hstart
  test t m ht hleft := by
    obtain ⟨hheader, hinner⟩ := hsame l.header hp.header_mem
    obtain ⟨s, hs, hst⟩ := hs.gets_end hf hheader hinner ht
    have huse : test ∈ (f.block l.header).terminator.uses := by simp [hp.branch, Terminator.uses]
    have hdefined := hf.isDefinedAt_of_mem_terminator hs.mem_reversePostorder
      (hf.getElem?_block hs.mem_reversePostorder) huse
    rw [← Block.length_instrs] at hdefined
    rw [← hst.2 test (not_unseen hdefined (hheader.visible test (List.mem_append_right _ huse)))]
    exact hc.test s m hs (by rwa [hst.1])
  round t t' m ht hleft hrun := by
    obtain ⟨hbody, hinner⟩ := hsame body hp.body_mem
    obtain ⟨hlatch, -⟩ := hsame l.latch hp.latch_mem
    obtain ⟨s, hjoint, -⟩ := hs.joint_of_gets hinner ht
    have hid : body ∈ f.reversePostorder := hjoint.gets.mem_reversePostorder
    have hnext : l.latch ∈ f.successors body := by
      simp [Function.successors, hp.toLatch, Terminator.successors]
    have hagree : Agree (fun s t : State => s.store = t.store)
        (runAll W W.caller f.varType (l.round f body) s) (runAll W W.caller g.varType (l.round f body) t) := by
      rw [LoopInfo.round, runAll_append, runAll_append]
      apply (agree_instrs hf hid hbody.types hbody.visible hjoint.similar).bind
      intro s₁ t₁ hst
      have hst' := hst.enter hf hid hnext (hp.params _ hp.latch_mem)
      refine (agree_instrs hf (Function.mem_reversePostorder_of_successor hid hnext) hlatch.types
        hlatch.visible hst').mono ?_
      exact fun _ _ hst'' => hst''.1
    have hround : l.round g body = l.round f body := by
      rw [LoopInfo.round, LoopInfo.round, hbody.instrs, hlatch.instrs]
    rw [hround] at hrun
    obtain ⟨s', hs', hstore⟩ := hagree.of_ok hrun
    rw [← hstore]
    exact hc.round s s' m hjoint.gets (hjoint.similar.1 ▸ hleft) hs'

end CountsDown

end FormCompiler.Flow
