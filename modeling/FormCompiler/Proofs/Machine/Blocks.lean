import FormCompiler.Proofs.Machine.Position
import FormCompiler.Proofs.Machine.Simulation

/-!
# Blocks of allocated code

The code of a block keeps states in agreement: the registers that are live at its end have their
contents at their places if those that are live at its start had, and control goes the same way. So
allocated code runs through the same blocks as the code on virtual registers, step by step.
-/

namespace FormCompiler.Machine

open FormCompiler.Flow

/-! ## Traces only grow -/

section

variable {W : World} {hidden : Nat → Bool}

theorem prefix_trace_run [DecidableEq ρ] (i : Instr ρ) (s : State ρ) :
  s.store.trace <+: traceOf (·.store.trace) (i.run W hidden s)
  := by
  have h := prefix_trace_act W hidden s.regs s.store i
  unfold Instr.run
  cases hact : i.act W hidden s.regs s.store with
  | error trace =>
    rw [hact] at h
    exact h
  | ok result =>
    rw [hact] at h
    exact h

theorem prefix_trace_runAll [DecidableEq ρ] (code : List (Instr ρ)) (s : State ρ) :
  s.store.trace <+: traceOf (·.store.trace) (runAll W hidden code s)
  := by
  induction code generalizing s with
  | nil => exact List.prefix_rfl
  | cons i code ih =>
    have hfirst : _ <+: traceOf _ (i.run W hidden s) := prefix_trace_run i s
    rw [runAll]
    cases hrun : i.run W hidden s with
    | error trace =>
      rw [hrun] at hfirst
      exact hfirst
    | ok s' =>
      rw [hrun] at hfirst
      exact hfirst.trans (ih s')

theorem next_error {s : State ρ} {c : Control ρ} {trace : List Event}
    (h : c.next W s = .error trace) :
  trace = s.store.trace
  := by
  cases c with
  | jump | branch => cases h
  | compareBranch op lhs rhs =>
    simp only [Control.next] at h
    split at h
    · cases h
    · exact (Except.error.inj h).symm
  | ret value => cases value <;> cases h
  | trap => exact (Except.error.inj h).symm

theorem prefix_trace_block (b : SelectedBlock) (s : State VReg) :
  s.store.trace <+: traceOf (·.1.store.trace) (b.run W s)
  := by
  have hbody : _ <+: traceOf _ (runAll W (fun _ => false) b.body s) := prefix_trace_runAll b.body s
  unfold SelectedBlock.run
  cases hrun : runAll W (fun _ => false) b.body s with
  | error trace =>
    rw [hrun] at hbody
    exact hbody
  | ok s' =>
    rw [hrun] at hbody
    change _ <+: traceOf _ (b.control.next W (moveAll W b.moves s') >>= _)
    cases hnext : b.control.next W (moveAll W b.moves s') with
    | error trace =>
      obtain rfl := next_error hnext
      exact hbody
    | ok next => exact hbody

theorem prefix_trace_runFrom (f : SelectedFunction) (count : Nat) (id : BlockId) (s : State VReg) :
  s.store.trace <+: (f.runFrom W count id s).1
  := by
  induction count generalizing id s with
  | zero => exact List.prefix_rfl
  | succ count ih =>
    rw [SelectedFunction.runFrom]
    cases f.blocks.find? (·.id == id) with
    | none => exact List.prefix_rfl
    | some b =>
      have hblock := prefix_trace_block (W := W) b s
      simp only
      cases hrun : b.run W s with
      | error trace =>
        rw [hrun] at hblock
        exact hblock
      | ok result =>
        rw [hrun] at hblock
        obtain ⟨s', next⟩ := result
        cases next with
        | done value => exact hblock
        | goto next => exact hblock.trans (ih next s')

end

/-! ## Blocks that fit their registers -/

/-- The moves of a block have different destinations, and their sources fill these. -/
structure MovesFit (lanes : VReg → Nat) (moves : List (VReg × Operand VReg)) : Prop where
  nodup : (moves.map (·.1)).Nodup
  sources : ∀ m ∈ moves, m.2.HasLanes lanes (lanes m.1)

/-- The control of a block looks at no more lanes of a register than it has. -/
def Control.Fits (W : World) (lanes : VReg → Nat) : Control VReg → Prop
  | compareBranch _ lhs rhs _ _ => lhs.IsPlain ∧ rhs.IsPlain
  | ret (some value) => value.HasLanes lanes W.resultWords
  | jump _ | branch .. | ret none | trap => True

/-- A block looks at no more lanes of a register than it has. -/
structure SelectedBlock.Fits (W : World) (lanes : VReg → Nat) (b : SelectedBlock) : Prop where
  body : ∀ i ∈ b.body, i.Fits W lanes
  moves : MovesFit lanes b.moves
  control : b.control.Fits W lanes

/-! ## Moves -/

section

variable {W : World} {a : Allocation} {held : VReg → Nat → Prop} {low high : Nat}

/-- Registers that are held at one position have different places. -/
theorem Allocation.IsLayout.location_inj
    (hl : a.IsLayout held low high) {v w : VReg} {p : Nat} (hv : held v p) (hw : held w p)
    (h : a.location v = a.location w) :
  v = w
  := by
  by_contra hne
  have hapart := hl.apart hv hw hne
  rw [h] at hapart
  exact Location.not_apart_self _ (a.lanes_pos v) (a.lanes_pos w) hapart

/-- The move of a value to the place of a register. -/
def Allocation.move (a : Allocation) (m : VReg × Operand VReg) : Move :=
  ⟨a.location m.1, a.inPlace m.2, a.words m.1⟩

theorem Allocation.inPlace_eq_operand {a : Allocation} {source : Operand VReg}
    (hplain : source.IsPlain) {ℓ : Location} (h : a.inPlace source = ℓ.operand) :
  ∃ v, source = .reg v ∧ a.location v = ℓ
  := by
  cases source with
  | reg v => exact ⟨v, rfl, Location.operand_inj h⟩
  | frame offset => exact absurd rfl (hplain offset)
  | imm | float => cases ℓ <;> cases h

variable {moves : List (VReg × Operand VReg)} {p : Nat}

theorem mem_moveUses {v : VReg} {dst : VReg} (h : (dst, .reg v) ∈ moves) :
  v ∈ moveUses moves
  := List.mem_filterMap.mpr ⟨(dst, .reg v), h, rfl⟩

/-- The source of a move has the same contents at its place. -/
theorem sameLanes_source
    {live : VReg → Prop} {area : Area} {s : State VReg} {t : State Reg} {n : Nat}
    {source : Operand VReg} (hsource : source.HasLanes a.lanes n)
    (hlive : ∀ v, source = .reg v → live v) (h : Agrees W area a live s t) :
  SameLanes n ((a.inPlace source).lanes W t.store.memory t.regs)
    (source.lanes W s.store.memory s.regs)
  := by
  cases source with
  | reg v => exact (h.regs v (hlive v rfl)).symm.mono (hsource.lanes v rfl)
  | imm | float => exact SameLanes.refl _ _
  | frame offset => exact absurd rfl (hsource.plain offset)

/-- A source that is a place is that of a register with enough lanes. -/
theorem MovesFit.exists_reg (hfit : MovesFit a.lanes moves) (hheld : ∀ v ∈ moveUses moves, held v p)
    {m : VReg × Operand VReg} (hm : m ∈ moves) {ℓ : Location} (hℓ : a.inPlace m.2 = ℓ.operand) :
  ∃ v, held v p ∧ a.location v = ℓ ∧ a.lanes m.1 ≤ a.lanes v
  := by
  have hlanes := hfit.sources _ hm
  obtain ⟨v, hv, hlocation⟩ := Allocation.inPlace_eq_operand hlanes.plain hℓ
  obtain ⟨dst, source⟩ := m
  obtain rfl : source = .reg v := hv
  exact ⟨v, hheld v (mem_moveUses hm), hlocation, hlanes.lanes v rfl⟩

/-- The moves of a block can be made one after the other. -/
theorem orderly_moves
    (hl : a.IsLayout held low high) (hfit : MovesFit a.lanes moves)
    (hheld : ∀ v ∈ moveUses moves ++ moves.map (·.1), held v p) :
  Orderly a.firstScratch a.secondScratch (moves.map a.move)
  := by
  rw [List.forall_mem_append, List.forall_mem_map] at hheld
  obtain ⟨huses, hdst⟩ := hheld
  constructor
  · rw [List.forall_mem_map]
    exact fun m _ => hl.ne_scratch m.1
  · have hnodup : moves.Pairwise fun m m' => m.1 ≠ m'.1 := List.pairwise_map.mp hfit.nodup
    rw [List.pairwise_map]
    refine hnodup.imp_of_mem ?_
    intro m m' hm hm' hne
    exact hl.apart (hdst m hm) (hdst m' hm') hne
  · simp only [List.forall_mem_map]
    intro m hm m' hm' ℓ hℓ
    obtain ⟨v, hv, rfl, hle⟩ := hfit.exists_reg huses hm' hℓ
    by_cases hvm : v = m.1
    · exact .inl (by rw [hvm]; rfl)
    · exact .inr ((hl.apart hv (hdst m hm) hvm).mono hle)
  · simp only [List.forall_mem_map]
    intro m hm m' hm' heq
    obtain ⟨v, hv, hlocation, hle⟩ := hfit.exists_reg huses hm' heq
    rw [hl.location_inj hv (hdst m hm) hlocation] at hle
    exact hle

/-- A move of a block only accesses places of registers. -/
theorem isPossible_move
    (hl : a.IsLayout held low high) (hfit : MovesFit a.lanes moves)
    (hheld : ∀ v ∈ moveUses moves ++ moves.map (·.1), held v p) {m : VReg × Operand VReg} (hm : m ∈ moves) :
  (a.move m).IsPossible W (fun x => (W.areaBetween low high).hides x = true) a.secondScratch
  := by
  rw [List.forall_mem_append, List.forall_mem_map] at hheld
  obtain ⟨huses, hdst⟩ := hheld
  constructor
  · intro heq
    obtain ⟨v, -, hlocation, -⟩ := hfit.exists_reg (ℓ := .reg a.secondScratch) huses hm heq
    exact (hl.ne_scratch v).2 hlocation
  · intro o ho i hi
    exact (hl.inside (hdst m hm) ho).hides hi
  · intro o ho i hi
    obtain ⟨v, hv, hlocation, hle⟩ := hfit.exists_reg (ℓ := .frame o) huses hm ho
    exact (hl.inside hv hlocation).hides (Nat.lt_of_lt_of_le hi hle)

/-- The code of the moves of a block does what they do at once. -/
theorem agrees_moves
    (hl : a.IsLayout held low high) (hfit : MovesFit a.lanes moves)
    (hheld : ∀ v ∈ moveUses moves ++ moves.map (·.1), held v p) {live live' : VReg → Prop}
    (huses : ∀ v ∈ moveUses moves, live v)
    (hlive : ∀ w, live' w → w ∉ moves.map (·.1) → live w ∧ held w p) {s : State VReg} {t : State Reg}
    (h : Agrees W (W.areaBetween low high) a live s t) :
  ∃ t', runAll W (W.areaBetween low high).hides (a.moves moves) t = .ok t'
    ∧ Agrees W (W.areaBetween low high) a live' (moveAll W moves s) t'
  := by
  have hdst : ∀ m ∈ moves, held m.1 p := fun m hm =>
    hheld _ (List.mem_append_right _ (List.mem_map_of_mem hm))
  obtain ⟨t', want, hrun, hwant, hmoved⟩ := run_sequentialize _ t hl.scratch
    (orderly_moves hl hfit hheld) (List.forall_mem_map.mpr fun m hm => isPossible_move hl hfit hheld hm)
  refine ⟨t', hrun, ?_, ?_, ?_⟩
  · intro v hv
    simp only [moveAll]
    cases hlookup : moves.lookup v with
    | some source =>
      have hm := mem_of_lookup_eq_some hlookup
      have hcontent := hmoved.dests _ (List.mem_map_of_mem hm)
      rw [hwant _ (List.mem_map_of_mem hm)] at hcontent
      refine (hcontent.trans (sameLanes_source (hfit.sources _ hm) (fun w hw => ?_) h)).symm
      obtain rfl : source = .reg w := hw
      exact huses w (mem_moveUses hm)
    | none =>
      have hnot : v ∉ moves.map (·.1) := by
        intro hmem
        obtain ⟨m, hm, rfl⟩ := List.mem_map.mp hmem
        rw [lookup_eq_some_of_mem hfit.nodup hm] at hlookup
        cases hlookup
      obtain ⟨hbefore, hheldv⟩ := hlive v hv hnot
      refine (h.regs v hbefore).trans (SameLanes.symm ?_)
      apply hmoved.content _ _ _ (hl.ne_scratch v).1 (hl.ne_scratch v).2
      rw [List.forall_mem_map]
      intro m hm
      apply hl.apart hheldv (hdst m hm)
      rintro rfl
      exact hnot (List.mem_map_of_mem hm)
  · intro x hx
    refine (h.store.memory x hx).trans (hmoved.memory x ?_).symm
    rw [List.forall_mem_map]
    intro m hm hcovers
    exact hx (hcovers.holds fun o ho => hl.inside (hdst m hm) ho)
  · exact h.store.trace.trans (hmoved.sees.trace_eq fun _ h => h).symm

/-! ## Control -/

/-- After the reloads of a block's control, control goes where it goes on virtual registers. -/
theorem agrees_control
    (hl : a.IsLayout held low high) {c : Control VReg} (hfits : c.Fits W a.lanes)
    (hheld : ∀ v ∈ c.uses, held v p) {live live' : VReg → Prop} (huses : ∀ v ∈ c.uses, live v)
    (hlive : ∀ w, live' w → live w) {s : State VReg} {t : State Reg}
    (h : Agrees W (W.areaBetween low high) a live s t) :
  ∃ t', runAll W (W.areaBetween low high).hides (a.reloadCode (a.reloads c.uses)) t = .ok t'
    ∧ Agrees W (W.areaBetween low high) a live' s t'
    ∧ (c.map (a.readFrom (a.reloads c.uses))).next W t' = c.next W s
  := by
  obtain ⟨regs, hreload, hregs, hread⟩ := run_reloadCode (W := W) hl (length_uses_control c) hheld t
  refine ⟨⟨regs, t.store⟩, hreload, ⟨fun v hv => ?_, h.store⟩, ?_⟩
  · rw [content_eq_of_reloads hl hregs]
    exact h.regs v (hlive v hv)
  have hsame : ∀ v ∈ c.uses, SameLanes (a.lanes v) (s.regs v)
      (regs (a.readFrom (a.reloads c.uses) v)) := fun v hv =>
    (h.regs v (huses v hv)).trans (hread v hv).symm
  have hone : ∀ v ∈ c.uses, SameLanes 1 (s.regs v) (regs (a.readFrom (a.reloads c.uses) v)) :=
    fun v hv => (hsame v hv).mono (a.lanes_pos v)
  cases c with
  | jump target => rfl
  | branch test thenBlock elseBlock =>
    simp only [Control.map, Control.next]
    rw [hone test (by simp [Control.uses]) 0 Nat.one_pos]
  | compareBranch op lhs rhs thenBlock elseBlock =>
    obtain ⟨hlhs, hrhs⟩ := hfits
    simp only [Control.map, Control.next]
    rw [← Operand.word_map W s.store.memory t.store.memory hlhs
        fun v hv => hone v (List.mem_append_left _ hv),
      ← Operand.word_map W s.store.memory t.store.memory hrhs
        fun v hv => hone v (List.mem_append_right _ hv), h.store.trace]
  | ret value =>
    cases value with
    | none => rfl
    | some value =>
      have hvalue : value.HasLanes a.lanes W.resultWords := hfits
      have hlanes : SameLanes W.resultWords (value.lanes W s.store.memory s.regs)
          ((value.map (a.readFrom (a.reloads (Control.ret (some value)).uses))).lanes W
            t.store.memory regs) := by
        apply Operand.lanes_map W _ _ hvalue.plain
        intro v hv
        apply (hsame v hv).mono
        apply hvalue.lanes v
        cases value <;> simp_all [Operand.reg?]
      simp only [Control.map, Control.next, Option.map_some]
      refine congrArg (fun ws => Except.ok (Next.done (some ws))) ?_
      apply List.map_congr_left
      intro i hi
      exact (hlanes i (List.mem_range.mp hi)).symm
  | trap =>
    simp only [Control.map, Control.next]
    rw [h.store.trace]

end

/-! ## Blocks -/

theorem Simulates.bind
    {R : σ → τ → Prop} {R' : σ' → τ' → Prop} {x : Except (List Event) σ} {y : Except (List Event) τ}
    {next : σ → Except (List Event) σ'} {next' : τ → Except (List Event) τ'} (h : Simulates R x y)
    (hnext : ∀ s t, x = .ok s → R s t → Simulates R' (next s) (next' t)) :
  Simulates R' (x >>= next) (y >>= next')
  := by
  cases x with
  | error trace =>
    obtain rfl : y = .error trace := h
    rfl
  | ok s =>
    obtain ⟨t, rfl, hR⟩ := h
    exact hnext s t rfl hR

section

variable {W : World} {a : Allocation} {f : SelectedFunction} {low high k : Nat} {b : SelectedBlock}

/-- The code of the instructions of a block from one of them on. -/
theorem simulates_body
    (hl : a.IsLayout (Held f) low high) (hspares : W.Spares (W.areaBetween low high))
    (hbounded : f.IsBounded) (hb : f.blocks[k]? = some b) (hfits : ∀ i ∈ b.body, i.Fits W a.lanes)
    {j : Nat} (hj : j ≤ b.body.length) {s : State VReg} {t : State Reg}
    (h : Agrees W (W.areaBetween low high) a
      (LiveBefore (LiveOut f.blocks b) (b.accessesFrom j)) s t)
    (havoid : ∀ e ∈ traceOf (·.store.trace) (runAll W (fun _ => false) (b.body.drop j) s),
      e.Avoids (W.areaBetween low high)) :
  Simulates
    (Agrees W (W.areaBetween low high) a
      (LiveBefore (LiveOut f.blocks b) (b.accessesFrom b.body.length)))
    (runAll W (fun _ => false) (b.body.drop j) s)
    (runAll W (W.areaBetween low high).hides ((b.body.drop j).flatMap a.instr) t)
  := by
  induction hj using Nat.decreasingInduction generalizing s t with
  | self =>
    rw [List.drop_length]
    exact ⟨t, rfl, h⟩
  | of_succ j hj ih =>
    have hi := List.getElem?_eq_getElem hj
    rw [List.drop_eq_getElem_cons hj] at havoid ⊢
    rw [List.flatMap_cons, runAll_append, runAll]
    rw [accessesFrom_body hi] at h
    rw [runAll] at havoid
    -- the trace of the first instruction is a part of the whole trace
    have hpart : traceOf (·.store.trace) (b.body[j].run W (fun _ => false) s)
        <+: traceOf (·.store.trace)
          (b.body[j].run W (fun _ => false) s >>= runAll W (fun _ => false) (b.body.drop (j + 1))) := by
      cases hrun : b.body[j].run W (fun _ => false) s with
      | error trace => exact List.prefix_rfl
      | ok s' => exact prefix_trace_runAll _ s'
    have hfirst := simulates_instr hl hspares (hfits _ (List.getElem_mem hj))
      (fun v hv => held_of_mem_regs hbounded hb hi hv) (fun v hv => .inl hv)
      (fun w hw hdef => ⟨.inr ⟨hdef, hw⟩, held_through hbounded hb hi hdef hw⟩) h
      (fun e he => havoid e (hpart.subset he))
    apply hfirst.bind
    intro s' t' hs' hagrees
    apply ih hagrees
    rw [hs'] at havoid
    exact havoid

/-- A block is left for one of its successors. -/
theorem mem_successors_of_next
    {c : Control ρ} {s : State ρ} {id : BlockId} (h : c.next W s = .ok (.goto id)) :
  id ∈ c.successors
  := by
  cases c with
  | jump target =>
    obtain rfl : target = id := by simpa [Control.next] using h
    simp [Control.successors]
  | branch test thenBlock elseBlock =>
    have heq : (if s.regs test 0 ≠ 0 then thenBlock else elseBlock) = id := by
      simpa [Control.next] using h
    subst heq
    split <;> simp [Control.successors]
  | compareBranch op lhs rhs thenBlock elseBlock =>
    simp only [Control.next] at h
    split at h
    · next w hw =>
      have heq : (if w ≠ 0 then thenBlock else elseBlock) = id := by simpa using h
      subst heq
      split <;> simp [Control.successors]
    · cases h
  | ret value => cases value <;> simp [Control.next] at h
  | trap => cases h

/-- How the ends of a block on virtual registers and of its code are related. -/
structure LeftAlike (W : World) (area : Area) (a : Allocation) (blocks : List SelectedBlock)
    (b : SelectedBlock) (x : State VReg × Next) (y : State Reg × Option Next) : Prop where
  agrees : Agrees W area a (LiveOut blocks b) x.1 y.1
  next : y.2 = some x.2
  successor : ∀ id, x.2 = .goto id → id ∈ b.control.successors

/-- A block only lacks control if it jumps to the block that follows it. -/
theorem control_block (a : Allocation) (follower : Option BlockId) (b : SelectedBlock) :
  (∃ target, b.control = .jump target ∧ follower = some target
      ∧ (a.block follower b).control = none)
    ∨ (a.block follower b).control
      = some (b.control.map (a.readFrom (a.reloads b.control.uses)))
  := by
  unfold Allocation.block
  cases hcontrol : b.control with
  | jump target =>
    by_cases hfollower : follower = some target
    · exact .inl ⟨target, rfl, hfollower, if_pos hfollower⟩
    · exact .inr (if_neg hfollower)
  | branch | compareBranch | ret | trap => exact .inr rfl

/-- The code of a block does what the block does. -/
theorem simulates_block
    (hl : a.IsLayout (Held f) low high) (hspares : W.Spares (W.areaBetween low high))
    (hbounded : f.IsBounded) (hb : f.blocks[k]? = some b) (hfits : b.Fits W a.lanes)
    (follower : Option BlockId) {s : State VReg} {t : State Reg}
    (h : Agrees W (W.areaBetween low high) a (LiveIn f.blocks k) s t)
    (havoid : ∀ e ∈ traceOf (·.1.store.trace) (b.run W s), e.Avoids (W.areaBetween low high)) :
  Simulates (LeftAlike W (W.areaBetween low high) a f.blocks b) (b.run W s)
    ((a.block follower b).run W (W.areaBetween low high).hides follower t)
  := by
  have hstart : Agrees W (W.areaBetween low high) a
      (LiveBefore (LiveOut f.blocks b) (b.accessesFrom 0)) s t :=
    ⟨fun v hv => h.regs v (liveIn_iff.mpr ⟨b, hb, hv⟩), h.store⟩
  have hpart : traceOf (·.store.trace) (runAll W (fun _ => false) b.body s)
      <+: traceOf (·.1.store.trace) (b.run W s) := by
    unfold SelectedBlock.run
    cases runAll W (fun _ => false) b.body s with
    | error trace => exact List.prefix_rfl
    | ok s' =>
      change s'.store.trace
        <+: traceOf _ (b.control.next W (moveAll W b.moves s') >>= fun next => pure (_, next))
      cases hnext : b.control.next W (moveAll W b.moves s') with
      | error trace =>
        obtain rfl := next_error hnext
        exact List.prefix_rfl
      | ok next => exact List.prefix_rfl
  have hbody := simulates_body hl hspares hbounded hb hfits.body (Nat.zero_le _) hstart
    (fun e he => havoid e (hpart.subset he))
  have hcode : (a.block follower b).body = b.body.flatMap a.instr
      ++ (a.moves b.moves ++ a.reloadCode (a.reloads b.control.uses)) := List.append_assoc _ _ _
  unfold SelectedBlock.run Block.run
  rw [hcode, runAll_append, bind_assoc]
  apply hbody.bind
  intro s' t' _ hagrees
  rw [accessesFrom_moves] at hagrees
  obtain ⟨t₁, hmoves, hagrees₁⟩ := agrees_moves hl hfits.moves
    (fun v hv => held_of_mem_moves hbounded hb hv) (fun v hv => .inl hv)
    (fun w hw hdef => ⟨.inr ⟨hdef, hw⟩, held_through_moves hbounded hb hdef hw⟩) hagrees
  obtain ⟨t₂, hreload, hagrees₂, hnext⟩ := agrees_control hl hfits.control
    (fun v hv => held_of_mem_control hbounded hb hv) (fun v hv => .inl hv)
    (fun w (hw : LiveOut f.blocks b w) => .inr ⟨by simp [SelectedBlock.last], hw⟩) hagrees₁
  rw [runAll_append, hmoves]
  change Simulates _ _ (runAll W _ (a.reloadCode _) t₁ >>= _)
  rw [hreload]
  rcases control_block a follower b with ⟨target, hjump, hfollower, hcontrol⟩ | hcontrol
  · rw [hcontrol, hfollower, hjump]
    refine ⟨_, rfl, hagrees₂, rfl, ?_⟩
    intro id hid
    obtain rfl : target = id := Next.goto.inj hid
    simp [hjump, Control.successors]
  · rw [hcontrol]
    change Simulates _ (b.control.next W (moveAll W b.moves s') >>= fun next => pure (_, next))
      ((b.control.map _).next W t₂ >>= fun next => pure (t₂, some next))
    rw [hnext]
    cases hgo : b.control.next W (moveAll W b.moves s') with
    | error trace => rfl
    | ok next =>
      refine ⟨(t₂, some next), rfl, hagrees₂, rfl, ?_⟩
      rintro id rfl
      exact mem_successors_of_next hgo

/-! ## Functions -/

theorem dropWhile_blocks (a : Allocation) (id : BlockId) (blocks : List SelectedBlock) :
  (a.blocks blocks).dropWhile (·.id != id) = a.blocks (blocks.dropWhile (·.id != id))
  := by
  induction blocks with
  | nil => rfl
  | cons b blocks ih =>
    have hid : (a.block (blocks.head?.map (·.id)) b).id = b.id := rfl
    rw [Allocation.blocks, List.dropWhile_cons, List.dropWhile_cons, hid, ih]
    split <;> rfl

theorem head?_blocks (a : Allocation) (blocks : List SelectedBlock) :
  (a.blocks blocks).head?.map (·.id) = blocks.head?.map (·.id)
  := by
  cases blocks <;> rfl

/-- Looking for a block, and for the blocks from it on. -/
theorem dropWhile_cases (blocks : List SelectedBlock) (id : BlockId) :
  (blocks.find? (·.id == id) = none ∧ blocks.dropWhile (·.id != id) = [])
    ∨ ∃ b rest, blocks.find? (·.id == id) = some b ∧ blocks.dropWhile (·.id != id) = b :: rest
      ∧ blocks[(blocks.map (·.id)).idxOf id]? = some b
  := by
  induction blocks with
  | nil => exact .inl ⟨rfl, rfl⟩
  | cons b blocks ih =>
    by_cases hid : b.id = id
    · refine .inr ⟨b, blocks, ?_, ?_, ?_⟩ <;> simp [hid]
    · have hne : (b.id == id) = false := beq_false_of_ne hid
      rw [List.find?_cons, List.dropWhile_cons, List.map_cons, List.idxOf_cons, bne, hne]
      exact ih

/-- Allocated code runs through the same blocks. -/
theorem runFrom_blocks
    (hl : a.IsLayout (Held f) low high) (hspares : W.Spares (W.areaBetween low high))
    (hbounded : f.IsBounded) (hfits : ∀ b ∈ f.blocks, b.Fits W a.lanes) {code : Function}
    (hcode : code.blocks = a.blocks f.blocks) (count : Nat) {id : BlockId} {s : State VReg}
    {t : State Reg}
    (h : Agrees W (W.areaBetween low high) a (LiveIn f.blocks ((f.blocks.map (·.id)).idxOf id)) s t)
    (havoid : ∀ e ∈ (f.runFrom W count id s).1, e.Avoids (W.areaBetween low high)) :
  code.runFrom W (W.areaBetween low high).hides count id t = f.runFrom W count id s
  := by
  induction count generalizing id s t with
  | zero => rw [Function.runFrom, SelectedFunction.runFrom, h.store.trace]
  | succ count ih =>
    rw [Function.runFrom, hcode, dropWhile_blocks]
    rcases dropWhile_cases f.blocks id with ⟨hfind, hdrop⟩ | ⟨b, rest, hfind, hdrop, hget⟩
    · rw [SelectedFunction.runFrom, hfind, hdrop, Allocation.blocks, h.store.trace]
    have hpart : traceOf (·.1.store.trace) (b.run W s) <+: (f.runFrom W (count + 1) id s).1 := by
      rw [SelectedFunction.runFrom, hfind]
      simp only
      cases b.run W s with
      | error trace => exact List.prefix_rfl
      | ok result =>
        obtain ⟨s', next⟩ := result
        cases next with
        | done value => exact List.prefix_rfl
        | goto next => exact prefix_trace_runFrom f count next s'
    have hblock := simulates_block hl hspares hbounded hget (hfits b (List.mem_of_getElem? hget))
      (rest.head?.map (·.id)) h (fun e he => havoid e (hpart.subset he))
    rw [SelectedFunction.runFrom, hfind] at havoid
    rw [SelectedFunction.runFrom, hfind, hdrop, Allocation.blocks]
    simp only [head?_blocks] at havoid ⊢
    cases hrun : b.run W s with
    | error trace =>
      rw [hrun] at hblock
      have hcodeRun : _ = Except.error trace := hblock
      rw [hcodeRun]
    | ok result =>
      obtain ⟨s', next⟩ := result
      rw [hrun] at hblock havoid
      obtain ⟨⟨t', next'⟩, hcodeRun, hagrees, rfl, hsuccessor⟩ := hblock
      rw [hcodeRun]
      cases next with
      | done value =>
        simp only
        rw [hagrees.store.trace]
      | goto next =>
        apply ih _ havoid
        refine ⟨fun v hv => hagrees.regs v ⟨_, ?_, hv⟩, hagrees.store⟩
        exact List.mem_map_of_mem (hsuccessor next rfl)

/-! ## The start of a run -/

/-- An argument arrives at the place of its parameter. -/
theorem receive_spec
    {held : VReg → Nat → Prop} (hl : a.IsLayout held low high) {v : VReg} {p : Nat} (hv : held v p)
    {arg : List UInt64} (hlength : arg.length = a.words v) (t : State Reg) :
  SameLanes (a.lanes v)
      ((a.location v).content W (t.receive W ((a.location v).operand, arg))) (lanesOf arg)
    ∧ Keeps W t (t.receive W ((a.location v).operand, arg)) (a.location v) (a.lanes v) a.firstScratch
    ∧ (t.receive W ((a.location v).operand, arg)).store.trace = t.store.trace
  := by
  cases hlocation : a.location v with
  | reg r =>
    refine ⟨?_, keeps_setReg r _ (lanesOf arg) _ rfl, rfl⟩
    change SameLanes _ (Location.content W ⟨setReg t.regs (some r) (lanesOf arg), t.store⟩ _) _
    rw [content_setReg]
    exact SameLanes.refl _ _
  | frame o =>
    have hlanes : arg.length = a.lanes v :=
      hlength.trans (Nat.max_eq_right (hl.bounds v p o hv hlocation).1).symm
    rw [← hlanes]
    exact ⟨content_setWords rfl, keeps_setWords (fun _ _ => rfl) rfl, rfl⟩

/-- All arguments arrive at the places of their parameters. -/
theorem receiveAll_spec
    {held : VReg → Nat → Prop} (hl : a.IsLayout held low high) {p : Nat}
    {arrivals : List (VReg × List UInt64)} (hnodup : (arrivals.map (·.1)).Nodup)
    (hheld : ∀ x ∈ arrivals, held x.1 p) (hlength : ∀ x ∈ arrivals, x.2.length = a.words x.1)
    (t : State Reg) :
  ∃ t', (arrivals.map fun x => ((a.location x.1).operand, x.2)).foldl (State.receive W) t = t'
    ∧ (∀ x ∈ arrivals, SameLanes (a.lanes x.1) (lanesOf x.2) ((a.location x.1).content W t'))
    ∧ (∀ w, held w p → w ∉ arrivals.map (·.1) →
      SameLanes (a.lanes w) ((a.location w).content W t') ((a.location w).content W t))
    ∧ t.store.Matches (W.areaBetween low high) t'.store
  := by
  refine ⟨_, rfl, ?_⟩
  induction arrivals generalizing t with
  | nil => exact ⟨by simp, fun _ _ _ => SameLanes.refl _ _, fun _ _ => rfl, rfl⟩
  | cons x arrivals ih =>
    rw [List.map_cons, List.nodup_cons] at hnodup
    obtain ⟨hnew, hnodup⟩ := hnodup
    have hx := hheld x (by simp)
    obtain ⟨hcontent, hkeeps, htrace⟩ := receive_spec (W := W) hl hx (hlength x (by simp)) t
    obtain ⟨hrest, hothers, hmatches⟩ := ih hnodup (fun y hy => hheld y (by simp [hy]))
      (fun y hy => hlength y (by simp [hy])) (t.receive W ((a.location x.1).operand, x.2))
    rw [List.map_cons, List.foldl_cons]
    refine ⟨?_, ?_, ?_, ?_⟩
    · intro y hy
      rcases List.mem_cons.mp hy with rfl | hy
      · exact ((hothers y.1 hx hnew).trans hcontent).symm
      · exact hrest y hy
    · intro w hw hnot
      rw [List.map_cons, List.mem_cons, not_or] at hnot
      refine (hothers w hw hnot.2).trans ?_
      exact hkeeps.content _ _ (hl.apart hw hx hnot.1) (hl.ne_scratch w).1
    · intro y hy
      refine (hkeeps.memory y fun hcovers => hy ?_).symm.trans (hmatches.memory y hy)
      exact hcovers.holds fun o ho => hl.inside hx ho
    · exact htrace.symm.trans hmatches.trace

theorem lookup_zip_of_mem
    {vs : List VReg} {args : List (List UInt64)} (hlength : vs.length = args.length) {v : VReg}
    (hv : v ∈ vs) :
  ∃ arg, (vs.zip args).lookup v = some arg
  := by
  cases hlookup : (vs.zip args).lookup v with
  | some arg => exact ⟨arg, rfl⟩
  | none =>
    rw [← List.map_fst_zip (Nat.le_of_eq hlength)] at hv
    obtain ⟨x, hx, rfl⟩ := List.mem_map.mp hv
    simpa using List.lookup_eq_none_iff.mp hlookup x hx

/--
Allocated code does what the code on virtual registers does. The contents of registers and of their
places do not matter in the beginning, as only parameters are live there.
-/
theorem run_blocks
    (hl : a.IsLayout (Held f) low high) (hspares : W.Spares (W.areaBetween low high))
    (hbounded : f.IsBounded) (hfits : ∀ b ∈ f.blocks, b.Fits W a.lanes) {code : Function}
    (hcode : code.blocks = a.blocks f.blocks)
    (hparams : code.params = f.params.map fun v => (a.location v).operand)
    (hnodup : f.params.Nodup) (hentry : ∀ v, LiveIn f.blocks 0 v → v ∈ f.params) (count : Nat)
    {args : List (List UInt64)}
    (hargs : List.Forall₂ (fun v (arg : List UInt64) => arg.length = a.words v) f.params args)
    (memory : Memory) (regs : VReg → Lanes) (regs' : Reg → Lanes)
    (havoid : ∀ e ∈ (f.run W count args memory regs).1, e.Avoids (W.areaBetween low high)) :
  code.run W (W.areaBetween low high).hides count args memory regs' = f.run W count args memory regs
  := by
  have hlength := hargs.length_eq
  unfold SelectedFunction.run at havoid
  unfold Function.run SelectedFunction.run
  cases hblocks : f.blocks with
  | nil =>
    rw [hcode, hblocks]
    rfl
  | cons first rest =>
    rw [hblocks] at havoid
    rw [hcode, hblocks, Allocation.blocks, hparams, List.zip_map_left]
    have hkeys : ((f.params.zip args).map (·.1)) = f.params :=
      List.map_fst_zip (Nat.le_of_eq hlength)
    have hzip : ∀ x ∈ f.params.zip args, x.2.length = a.words x.1 := fun x hx =>
      (List.forall₂_iff_zip.mp hargs).2 hx
    have hheld : ∀ x ∈ f.params.zip args, Held f x.1 0 := fun x hx =>
      held_of_mem_params hbounded (List.of_mem_zip hx).1
    obtain ⟨t, hreceive, harrived, -, hmatches⟩ := receiveAll_spec (W := W) hl
      (by rwa [hkeys]) hheld hzip ⟨regs', ⟨memory, []⟩⟩
    have hfirst : (f.blocks.map (·.id)).idxOf first.id = 0 := by simp [hblocks]
    change code.runFrom W _ count first.id (List.foldl _ _ (List.map _ _)) = _
    rw [show (Prod.map (fun v => (a.location v).operand) id : VReg × List UInt64 → _)
      = fun x => ((a.location x.1).operand, x.2) from rfl, hreceive]
    apply runFrom_blocks hl hspares hbounded hfits hcode count _ havoid
    refine ⟨fun v hv => ?_, hmatches⟩
    rw [hfirst] at hv
    obtain ⟨arg, harg⟩ := lookup_zip_of_mem hlength (hentry v hv)
    simp only [harg]
    exact harrived (v, arg) (mem_of_lookup_eq_some harg)

end

end FormCompiler.Machine
