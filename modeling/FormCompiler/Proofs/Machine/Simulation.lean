import FormCompiler.Proofs.Machine.Moves

/-!
# Code on virtual registers and on those of a target

A state on virtual registers *agrees* with one on the registers of the target if every live virtual
register has its contents at its place and if the two have the same memory, the places of registers
in the frame apart, and the same trace. The code that allocation makes of an instruction, of the
moves of a block and of its control keeps states in agreement.
-/

namespace FormCompiler.Machine

open FormCompiler.Flow

/-- The number of lanes of a virtual register that can be looked at. -/
def Allocation.lanes (a : Allocation) (v : VReg) : Nat := max 1 (a.words v)

theorem Allocation.lanes_pos (a : Allocation) (v : VReg) :
  0 < a.lanes v
  := Nat.lt_of_lt_of_le Nat.one_pos (Nat.le_max_left _ _)

/-- The contents of live registers are at their places, and all else is the same. -/
structure Agrees (W : World) (area : Area) (a : Allocation) (live : VReg → Prop) (s : State VReg)
    (t : State Reg) : Prop where
  regs : ∀ v, live v → SameLanes (a.lanes v) (s.regs v) ((a.location v).content W t)
  store : s.store.Matches area t.store

/-- The addresses of places between two offsets of the frame. -/
def World.areaBetween (W : World) (low high : Nat) : Area := ⟨W.frame + low, W.frame + high⟩

section

variable {W : World} {a : Allocation} {held : VReg → Nat → Prop} {low high : Nat}

/-- The place of a register in the frame lies in the area. -/
theorem Allocation.IsLayout.inside
    (hl : a.IsLayout held low high) {v : VReg} {p o : Nat} (hv : held v p)
    (hlocation : a.location v = .frame o) :
  Store.Inside (W.areaBetween low high) (W.frame + o) (a.lanes v)
  := by
  obtain ⟨hpos, hlow, hhigh⟩ := hl.bounds v p o hv hlocation
  have hlanes : a.lanes v = a.words v := Nat.max_eq_right hpos
  rw [hlanes]
  constructor <;> simp only [World.areaBetween] <;> omega

/-- Registers that are held at one position have places that are apart. -/
theorem Allocation.IsLayout.apart
    (hl : a.IsLayout held low high) {v w : VReg} {p : Nat} (hv : held v p) (hw : held w p)
    (hne : v ≠ w) :
  (a.location v).Apart (a.lanes v) (a.location w) (a.lanes w)
  := by
  cases hlocation : a.location v with
  | reg r =>
    cases hlocation' : a.location w with
    | reg r' =>
      intro heq
      rw [heq] at hlocation
      exact hne (hl.regs_apart v w p r' hv hw hlocation hlocation')
    | frame o' => trivial
  | frame o =>
    cases hlocation' : a.location w with
    | reg r' => trivial
    | frame o' =>
      have hlanes : a.lanes v = a.words v := Nat.max_eq_right (hl.bounds v p o hv hlocation).1
      have hlanes' : a.lanes w = a.words w := Nat.max_eq_right (hl.bounds w p o' hw hlocation').1
      rw [hlanes, hlanes']
      exact hl.frames_apart v w p p o o' hv hw hne hlocation hlocation'

theorem Allocation.IsLayout.ne_scratch (hl : a.IsLayout held low high) (v : VReg) :
  a.location v ≠ .reg a.firstScratch ∧ a.location v ≠ .reg a.secondScratch
  := by
  constructor
  · intro heq
    exact (hl.reg_ne v _ heq).1 rfl
  · intro heq
    exact (hl.reg_ne v _ heq).2 rfl

/-! ## Reloads -/

theorem isSpilled_iff {v : VReg} :
  a.isSpilled v = true ↔ ∃ o, a.location v = .frame o
  := by
  unfold Allocation.isSpilled Allocation.location
  cases a.kept.lookup v <;> simp

/-- At most two registers have to be loaded for at most two uses. -/
theorem reloads_cases {uses : List VReg} (h : uses.length ≤ 2) :
  a.reloads uses = [] ∨ (∃ v, a.reloads uses = [v])
    ∨ ∃ v w, v ≠ w ∧ a.reloads uses = [v, w]
  := by
  have hlength : (uses.filter a.isSpilled).length ≤ 2 := (List.length_filter_le _ _).trans h
  unfold Allocation.reloads
  match uses.filter a.isSpilled, hlength with
  | [], _ => exact .inl rfl
  | [v], _ => exact .inr (.inl ⟨v, rfl⟩)
  | [v, w], _ =>
    by_cases hvw : w = v
    · subst hvw
      exact .inr (.inl ⟨w, by simp [List.eraseDups_cons]⟩)
    · exact .inr (.inr ⟨v, w, fun heq => hvw heq.symm, by simp [List.eraseDups_cons, hvw]⟩)

theorem mem_reloads {uses : List VReg} {v : VReg} :
  v ∈ a.reloads uses ↔ v ∈ uses ∧ ∃ o, a.location v = .frame o
  := by
  rw [Allocation.reloads, List.mem_eraseDups, List.mem_filter, isSpilled_iff]

/-- Loading a register into a scratch register. -/
theorem run_reload_location
    (hl : a.IsLayout held low high) {v : VReg} {p o : Nat} (hv : held v p)
    (hlocation : a.location v = .frame o) (r : Reg) (t : State Reg) :
  ∃ x, (Allocation.reload r o (a.words v)).run W (W.areaBetween low high).hides t
      = .ok ⟨setReg t.regs (some r) x, t.store⟩
    ∧ SameLanes (a.lanes v) x ((a.location v).content W t)
  := by
  have hrun : (Allocation.reload r o (a.words v)).run W (W.areaBetween low high).hides t = _ :=
    run_reload r o (a.words v)
  have hin : Store.Inside (W.areaBetween low high) (W.frame + o) (max 1 (a.words v)) :=
    hl.inside hv hlocation
  rw [Store.read_inside hin] at hrun
  refine ⟨_, hrun, ?_⟩
  rw [hlocation]
  exact sameLanes_words _ _ _

/-- The register that the first reloaded register is read from. -/
theorem readFrom_first {v : VReg} {o : Nat} (hlocation : a.location v = .frame o) (rest : List VReg) :
  a.readFrom (v :: rest) v = a.firstScratch
  := by
  simp [Allocation.readFrom, hlocation]

/-- The register that the second reloaded register is read from. -/
theorem readFrom_second {v w : VReg} {o : Nat} (hlocation : a.location w = .frame o) (hne : v ≠ w) :
  a.readFrom [v, w] w = a.secondScratch
  := by
  simp [Allocation.readFrom, hlocation, hne]

theorem readFrom_reg {v : VReg} {r : Reg} (hlocation : a.location v = .reg r) (reloads : List VReg) :
  a.readFrom reloads v = r
  := by
  simp [Allocation.readFrom, hlocation]

/-- After the reloads of an instruction, the registers that it reads have their contents where it
reads them. -/
theorem run_reloadCode
    (hl : a.IsLayout held low high) {uses : List VReg} (hcount : uses.length ≤ 2) {p : Nat}
    (hheld : ∀ v ∈ uses, held v p) (t : State Reg) :
  ∃ regs, runAll W (W.areaBetween low high).hides (a.reloadCode (a.reloads uses)) t
      = .ok ⟨regs, t.store⟩
    ∧ (∀ r, r ≠ a.firstScratch → r ≠ a.secondScratch → regs r = t.regs r)
    ∧ ∀ v ∈ uses, SameLanes (a.lanes v) (regs (a.readFrom (a.reloads uses) v))
      ((a.location v).content W t)
  := by
  -- a register of the target is read where it is, and no scratch register is one
  have hkept : ∀ (regs : Reg → Lanes), (∀ r, r ≠ a.firstScratch → r ≠ a.secondScratch →
      regs r = t.regs r) → ∀ v ∈ uses, v ∉ a.reloads uses →
      SameLanes (a.lanes v) (regs (a.readFrom (a.reloads uses) v)) ((a.location v).content W t) := by
    intro regs hregs v hv hnot
    cases hlocation : a.location v with
    | reg r =>
      obtain ⟨hfirst, hsecond⟩ := hl.reg_ne v r hlocation
      rw [readFrom_reg hlocation, hregs r hfirst hsecond]
      exact SameLanes.refl _ _
    | frame o => exact absurd (mem_reloads.mpr ⟨hv, o, hlocation⟩) hnot
  have hframe : ∀ v ∈ a.reloads uses, held v p ∧ ∃ o, a.location v = .frame o := by
    intro v hv
    obtain ⟨huse, hlocation⟩ := mem_reloads.mp hv
    exact ⟨hheld v huse, hlocation⟩
  rcases reloads_cases hcount with hnil | ⟨v, hone⟩ | ⟨v, w, hne, htwo⟩
  · refine ⟨t.regs, by rw [hnil]; rfl, fun _ _ _ => rfl, fun v hv => ?_⟩
    exact hkept t.regs (fun _ _ _ => rfl) v hv (by simp [hnil])
  · obtain ⟨hv, o, hlocation⟩ := hframe v (by simp [hone])
    obtain ⟨x, hrun, hx⟩ := run_reload_location hl hv hlocation a.firstScratch t
    have hcode : a.reloadCode [v] = [Allocation.reload a.firstScratch o (a.words v)] := by
      simp [Allocation.reloadCode, hlocation, readFrom_first hlocation]
    have hregs : ∀ r, r ≠ a.firstScratch → r ≠ a.secondScratch →
        setReg t.regs (some a.firstScratch) x r = t.regs r := by
      intro r hfirst _
      simp [setReg, hfirst.symm]
    refine ⟨setReg t.regs (some a.firstScratch) x, ?_, hregs, fun u hu => ?_⟩
    · rw [hone, hcode, runAll_singleton, hrun]
    · by_cases huv : u = v
      · subst huv
        rw [hone, readFrom_first hlocation]
        simpa [setReg] using hx
      · exact hkept _ hregs u hu (by simp [hone, huv])
  · obtain ⟨hv, o, hlocation⟩ := hframe v (by simp [htwo])
    obtain ⟨hw, o', hlocation'⟩ := hframe w (by simp [htwo])
    obtain ⟨x, hrun, hx⟩ := run_reload_location hl hv hlocation a.firstScratch t
    obtain ⟨y, hrun', hy⟩ := run_reload_location hl hw hlocation' a.secondScratch
      ⟨setReg t.regs (some a.firstScratch) x, t.store⟩
    have hcode : a.reloadCode [v, w] = [Allocation.reload a.firstScratch o (a.words v),
        Allocation.reload a.secondScratch o' (a.words w)] := by
      simp [Allocation.reloadCode, hlocation, hlocation', readFrom_first hlocation,
        readFrom_second hlocation' hne]
    have hregs : ∀ r, r ≠ a.firstScratch → r ≠ a.secondScratch →
        setReg (setReg t.regs (some a.firstScratch) x) (some a.secondScratch) y r = t.regs r := by
      intro r hfirst hsecond
      simp [setReg, hfirst.symm, hsecond.symm]
    refine ⟨_, ?_, hregs, fun u hu => ?_⟩
    · rw [htwo, hcode, runAll, hrun]
      exact (runAll_singleton _ _ _).trans hrun'
    · by_cases huv : u = v
      · subst huv
        rw [htwo, readFrom_first hlocation]
        simpa [setReg, hl.scratch.symm] using hx
      · by_cases huw : u = w
        · subst huw
          rw [hlocation'] at hy
          have hcontent : SameLanes (a.lanes u) y (Location.content W t (.frame o')) := hy
          rw [htwo, readFrom_second hlocation' hne, hlocation']
          simpa [setReg] using hcontent
        · exact hkept _ hregs u hu (by simp [htwo, huv, huw])

/-! ## Instructions -/

/-- A run on virtual registers and one on those of the target trap with the same trace, or both end
with states that are related. -/
def Simulates (R : σ → τ → Prop) : Except (List Event) σ → Except (List Event) τ → Prop
  | .error trace, r => r = .error trace
  | .ok s, r => ∃ t, r = .ok t ∧ R s t

theorem length_operandUses (i : Instr ρ) :
  i.operandUses.length ≤ 2
  := by
  have hone : ∀ x : Option ρ, x.toList.length ≤ 1 := fun x => Option.length_toList_le
  have htwo : ∀ x y : Option ρ, (x.toList ++ y.toList).length ≤ 2 := by
    intro x y
    rw [List.length_append]
    exact Nat.add_le_add (hone x) (hone y)
  cases i with
  | move _ source | unary _ _ source | convert _ source _ | alloc _ source | check source _ =>
    exact (hone source.reg?).trans (by omega)
  | load _ address | locate _ address | loadLanes _ address _ =>
    exact (hone address.reg?).trans (by omega)
  | binary _ _ lhs rhs => exact htwo lhs.reg? rhs.reg?
  | store address source | storeLanes address source _ => exact htwo address.reg? source.reg?
  | copy dst source _ => exact htwo source.reg? dst.reg?
  | call => exact Nat.zero_le 2
  | free pointer => exact Nat.le_succ 1
  | binaryLanes => exact le_rfl

theorem length_uses_control (c : Control ρ) :
  c.uses.length ≤ 2
  := by
  have hone : ∀ x : Option ρ, x.toList.length ≤ 1 := fun x => Option.length_toList_le
  cases c with
  | jump | trap => exact Nat.zero_le 2
  | branch => exact Nat.le_succ 1
  | compareBranch _ lhs rhs =>
    rw [Control.uses, List.length_append]
    exact Nat.add_le_add (hone lhs.reg?) (hone rhs.reg?)
  | ret value =>
    cases value with
    | none => exact Nat.zero_le 2
    | some value => exact (hone value.reg?).trans (by omega)

theorem Instr.def?_map (read : ρ → σ) (arg : Operand ρ → Operand σ) (write : ρ → σ) (i : Instr ρ) :
  (i.map read arg write).def? = i.def?.map write
  := by
  cases i <;> rfl

theorem SameLanes.symm {n : Nat} {x y : Lanes} (h : SameLanes n x y) :
  SameLanes n y x
  := fun i hi => (h i hi).symm

/-- A place in the area has the same contents if the area has. -/
theorem content_frame_congr
    (hl : a.IsLayout held low high) {v : VReg} {p o : Nat} (hv : held v p)
    (hlocation : a.location v = .frame o) {t t' : State Reg}
    (hsame : ∀ x, (W.areaBetween low high).Holds x → t'.store.memory x = t.store.memory x) :
  SameLanes (a.lanes v) (Location.content W t' (.frame o)) (Location.content W t (.frame o))
  := by
  obtain ⟨hstart, hstop⟩ := hl.inside (W := W) hv hlocation
  intro i hi
  apply Memory.word_congr
  intro x hx hx'
  have hmul : wordBytes * (i + 1) ≤ wordBytes * a.lanes v := Nat.mul_le_mul_left _ hi
  rw [Nat.mul_add_one] at hmul
  apply hsame
  exact ⟨by omega, by omega⟩

/--
The state after an instruction whose result is where it is written, and after the result has been
stored at its place.
-/
theorem run_spillCode
    (hl : a.IsLayout held low high) {d : VReg} {p : Nat} (hd : held d p) (t : State Reg) :
  ∃ t', runAll W (W.areaBetween low high).hides (a.spillCode d) t = .ok t'
    ∧ SameLanes (a.lanes d) ((a.location d).content W t') (t.regs (a.writeTo d))
    ∧ (∀ w, held w p → w ≠ d →
      SameLanes (a.lanes w) ((a.location w).content W t') ((a.location w).content W t))
    ∧ t'.store.trace = t.store.trace
    ∧ ∀ x, ¬(W.areaBetween low high).Holds x → t'.store.memory x = t.store.memory x
  := by
  unfold Allocation.spillCode Allocation.writeTo
  cases hlocation : a.location d with
  | reg r =>
    exact ⟨t, rfl, SameLanes.refl _ _, fun _ _ _ => SameLanes.refl _ _, rfl, fun _ _ => rfl⟩
  | frame o =>
    have hin : Store.Inside (W.areaBetween low high) (W.frame + o) (a.lanes d) := hl.inside hd hlocation
    change ∃ t', runAll W _ [Allocation.spill o a.firstScratch (a.words d)] t = .ok t' ∧ _
    have hplain : Operand.IsPlain (.reg a.firstScratch) := fun _ => nofun
    rw [Allocation.spill, ← Move.code_of_plain a.secondScratch hplain]
    have hpossible : Move.IsPossible W (fun x => (W.areaBetween low high).hides x = true) a.secondScratch
        ⟨.frame o, .reg a.firstScratch, a.words d⟩ := by
      refine ⟨fun heq => hl.scratch (Operand.reg.inj heq), ?_, nofun⟩
      rintro _ ⟨⟩ i hi
      exact hin.hides hi
    obtain ⟨t', hrun, hvalue, hkeeps, hsees⟩ := run_code_frame (t := t) hpossible
    refine ⟨t', hrun, hvalue, ?_, hsees.trace_eq fun _ h => h, fun x hx => hkeeps.memory x ?_⟩
    · intro w hw hne
      apply hkeeps.content _ _ _ (hl.ne_scratch w).2
      have hapart := hl.apart hw hd hne
      rwa [hlocation] at hapart
    · exact fun hcovers => hx (hcovers.holds fun _ heq => Location.frame.inj heq ▸ hin)

/-- The registers of the target that hold virtual registers are not those that are loaded into. -/
theorem content_eq_of_reloads
    (hl : a.IsLayout held low high) {t : State Reg} {regs : Reg → Lanes}
    (hregs : ∀ r, r ≠ a.firstScratch → r ≠ a.secondScratch → regs r = t.regs r) (v : VReg) :
  (a.location v).content W ⟨regs, t.store⟩ = (a.location v).content W t
  := by
  cases hlocation : a.location v with
  | reg r =>
    obtain ⟨hfirst, hsecond⟩ := hl.reg_ne v r hlocation
    exact hregs r hfirst hsecond
  | frame o => rfl

/-- Other registers keep their contents when an instruction has written its result. -/
theorem content_setReg_of_ne
    (hl : a.IsLayout held low high) {w : VReg} {p : Nat} (hw : held w p) (dst : Option VReg)
    (hheld : ∀ d, dst = some d → held d p) (hne : dst ≠ some w) {t : State Reg} {t' : Store}
    (hsame : ∀ x, (W.areaBetween low high).Holds x → t'.memory x = t.store.memory x) (y : Lanes) :
  SameLanes (a.lanes w) ((a.location w).content W ⟨setReg t.regs (dst.map a.writeTo) y, t'⟩)
    ((a.location w).content W t)
  := by
  cases hlocation : a.location w with
  | frame o => exact content_frame_congr hl hw hlocation hsame
  | reg r =>
    have hwrite : dst.map a.writeTo ≠ some r := by
      intro heq
      obtain ⟨d, rfl, hd⟩ := Option.map_eq_some_iff.mp heq
      unfold Allocation.writeTo at hd
      cases hlocation' : a.location d with
      | reg q =>
        rw [hlocation'] at hd
        obtain rfl : q = r := hd
        exact hne (congrArg some (hl.regs_apart d w p q (hheld d rfl) hw hlocation' hlocation))
      | frame o =>
        rw [hlocation'] at hd
        exact (hl.reg_ne w r hlocation).1 hd.symm
    intro i _
    simp only [Location.content, Location.operand, Operand.lanes, setReg, if_neg hwrite]

/-- The code of an instruction does what the instruction does. -/
theorem simulates_instr
    (hl : a.IsLayout held low high) (hspares : W.Spares (W.areaBetween low high)) {i : Instr VReg}
    (hfits : i.Fits W a.lanes) {p : Nat} (hheld : ∀ v ∈ i.uses ++ i.def?.toList, held v p)
    {live live' : VReg → Prop} (huses : ∀ v ∈ i.uses, live v)
    (hlive : ∀ w, live' w → w ∉ i.def?.toList → live w ∧ held w p) {s : State VReg} {t : State Reg}
    (h : Agrees W (W.areaBetween low high) a live s t)
    (havoid : ∀ e ∈ traceOf (·.store.trace) (i.run W (fun _ => false) s),
      e.Avoids (W.areaBetween low high)) :
  Simulates (Agrees W (W.areaBetween low high) a live') (i.run W (fun _ => false) s)
    (runAll W (W.areaBetween low high).hides (a.instr i) t)
  := by
  obtain ⟨regs, hreload, hregs, hread⟩ := run_reloadCode (W := W) hl (length_operandUses i)
    (fun v hv => hheld v (List.mem_append_left _ (List.mem_append_left _ hv))) t
  have hstill := content_eq_of_reloads (W := W) hl hregs
  have hargs : ∀ v, .reg v ∈ i.args →
      SameLanes (a.lanes v) (s.regs v) ((a.inPlace (.reg v)).lanes W t.store.memory regs) := by
    intro v hv
    have hmem : v ∈ i.args.filterMap Operand.reg? := List.mem_filterMap.mpr ⟨.reg v, hv, rfl⟩
    have hcontent := h.regs v (huses v (List.mem_append_right _ hmem))
    rwa [← hstill v] at hcontent
  have haction : traceOf (·.2.trace) (i.act W (fun _ => false) s.regs s.store)
      = traceOf (·.store.trace) (i.run W (fun _ => false) s) := by
    unfold Instr.run
    cases i.act W (fun _ => false) s.regs s.store <;> rfl
  have haccords : Accords (W.areaBetween low high) t.store (i.wanted a.lanes)
      (i.act W (fun _ => false) s.regs s.store)
      ((i.map (a.readFrom (a.reloads i.operandUses)) a.inPlace a.writeTo).act W
        (W.areaBetween low high).hides regs t.store) := by
    apply accords_act hspares a.lanes_pos hfits h.store _ hargs _ (by rwa [haction])
    · intro v hv
      exact (h.regs v (huses v (List.mem_append_left _ hv))).trans (hread v hv).symm
    · intro operand hnone
      cases operand with
      | reg v => exact absurd hnone (by simp [Operand.reg?])
      | imm | float | frame => rfl
  unfold Allocation.instr
  rw [runAll_append, runAll_append, hreload]
  change Simulates _ _ (runAll W _ [_] _ >>= _)
  rw [runAll_singleton]
  unfold Instr.run
  cases hact : i.act W (fun _ => false) s.regs s.store with
  | error trace =>
    rw [hact] at haccords
    simp only [Accords] at haccords
    rw [haccords]
    rfl
  | ok result =>
    obtain ⟨x, s'⟩ := result
    rw [hact] at haccords
    obtain ⟨y, t', hact', hvalue, hmatches, hsame⟩ := haccords
    rw [hact', Instr.def?_map]
    have hothers : ∀ w, live' w → w ∉ i.def?.toList → SameLanes (a.lanes w) (s.regs w)
        ((a.location w).content W ⟨setReg regs (i.def?.map a.writeTo) y, t'⟩) := by
      intro w hw hnot
      obtain ⟨hbefore, hheldw⟩ := hlive w hw hnot
      have hcontent := content_setReg_of_ne (W := W) hl hheldw i.def?
        (fun d hd => hheld d (by simp [hd])) (by simpa [eq_comm] using hnot)
        (t := ⟨regs, t.store⟩) hsame y
      rw [hstill w] at hcontent
      exact (h.regs w hbefore).trans hcontent.symm
    cases hdef : i.def? with
    | none =>
      rw [hdef] at hothers
      refine ⟨_, rfl, ?_, hmatches⟩
      intro w hw
      have hw' := hothers w hw (by simp)
      exact hw'
    | some d =>
      rw [hdef] at hothers
      obtain ⟨t'', hrun, hd, hkeeps, htrace, hmemory⟩ := run_spillCode (W := W) hl
        (hheld d (by simp [hdef])) ⟨setReg regs (some (a.writeTo d)) y, t'⟩
      refine ⟨t'', ?_, ?_, ?_⟩
      · change runAll W _ (List.flatMap a.spillCode [d]) _ = _
        rw [List.flatMap_singleton]
        exact hrun
      · intro w hw
        by_cases hwd : w = d
        · subst hwd
          rw [Instr.wanted, hdef] at hvalue
          simp only [setReg] at hd ⊢
          exact hvalue.trans hd.symm
        · have hw' := hothers w hw (by simpa using hwd)
          have hne : ¬some d = some w := fun heq => hwd (Option.some.inj heq).symm
          simp only [setReg, if_neg hne]
          exact hw'.trans (hkeeps w (hlive w hw (by simpa [hdef] using hwd)).2 hwd).symm
      · refine ⟨fun x hx => ?_, ?_⟩
        · exact (hmatches.memory x hx).trans (hmemory x hx).symm
        · exact hmatches.trace.trans htrace.symm

end

end FormCompiler.Machine
