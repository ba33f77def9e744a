import FormCompiler.Proofs.Lowering.Forms

/-!
# Lowering of forms that branch

Conditionals, loops and jumps out of them. A conditional joins its branches in a block that takes the
value as a parameter; if control comes out of neither branch, nothing goes to that block.
-/

namespace FormCompiler

open FormCompiler.Flow

namespace LowerState

variable {passed passed' : Passed} {s s' : LowerState} {id : BlockId}

/-- Nothing goes to a block. -/
def Unused (s : LowerState) (id : BlockId) : Prop := ∀ d, id ∉ s.function.successors d

theorem Grown.unused (h : s.Grown passed passed' s') (hid : id < s.function.blocks.length)
    (htarget : ¬s.IsTarget id) (hunused : s.Unused id) :
  s'.Unused id
  := by
  intro d hd
  by_cases hnew : s.Writes d ∨ s.function.blocks.length ≤ d
  · rcases h.targets d hnew id hd with hle | hid'
    · exact absurd hid (Nat.not_lt_of_le hle)
    · exact htarget hid'
  · obtain ⟨hnot, hlt⟩ := not_or.mp hnew
    rw [Function.successors, h.others d (Nat.lt_of_not_le hlt) hnot] at hd
    exact hunused d hd

end LowerState

namespace Lower

open LowerState

section

variable {c : LowerContext} {result type : Ty} {scope scope' : TypeScope} {passed passed' : Passed}
  {s s' : LowerState} {place : Place} {id : Nat} {span : Span} {leaves : Bool}
variable {action : Lower (Option VarId)} {test init step : Expr} {thenLeaves elseLeaves testLeaves bodyLeaves : Bool}
    {inner : TypeScope} {body : List Expr}

/-! ## Jumps -/

/-- A jump to a target of the loop around. -/
theorem lowers_jumpInLoop {name : String} {target : LoopTargets → BlockId}
    (htarget : ∀ targets, target targets = targets.latch ∨ target targets = targets.exit) :
  Lowers c result scope type scope true (do
    let targets ← loopTargets span name
    jumpInLoop targets (target targets)
    return none)
  := by
  intro passed s h
  rw [loopTargets, bind_assoc]
  refine .bind_get (.bind_required fun targets htargets => ?_)
  refine (ensures_jumpInLoop h.toLive targets ⟨targets, htargets, htarget targets⟩).bind
    fun _ s' ⟨h', hclosed⟩ => .pure (.lost (h'.lost hclosed scope) hclosed)

theorem lowers_ret_none :
  Lowers c result scope type scope true (form place id span (.ret none))
  := by
  intro passed s h
  simp only [form]
  refine (ensures_returnValue h.toLive span (by simp)).bind fun _ s' ⟨h', hclosed⟩ => ?_
  exact .pure (.lost (h'.lost hclosed scope) hclosed)

theorem lowers_ret_some {value : Expr}
    (hvalue : Lowers c result scope result scope' leaves (expr .operand value)) :
  Lowers c result scope type scope' true (form place id span (.ret (some value)))
  := by
  intro passed s h
  simp only [form]
  refine (hvalue passed s h).bind fun v s₁ ⟨passed₁, h₁, hv, _⟩ => .bind_isOpen ?_
  refine .bind_ite (m := fun s₂ => ∃ passed₂, Reached c result scope' passed s passed₂ s₂
    ∧ s₂.isOpen = false) (fun hopen => ?_) (fun hclosed => ⟨passed₁, h₁, hclosed⟩)
    fun s₂ ⟨passed₂, h₂, hclosed⟩ => .pure (.lost h₂ hclosed)
  have hready₁ := h.after h₁ hopen
  refine (ensures_returnValue hready₁.toLive span fun w hw => (hv w hw).2).mono fun _ s₂ ⟨h₂, hclosed⟩ => ?_
  exact ⟨passed₁, h₁.trans hopen (h₂.lost hclosed scope'), hclosed⟩

/-! ## Conditionals -/

theorem Ended.unused (h : Ended s s') (hclosed : s.isOpen = false) {block : BlockId}
    (hunused : s.Unused block) :
  s'.Unused block
  := by
  intro d hd
  rw [Function.successors, h.others d (not_writes hclosed d)] at hd
  exact hunused d hd

/-- The end of a block goes only to its targets. -/
theorem ensures_unused {terminator : Terminator} (hcurrent : s.current < s.function.blocks.length)
    {block : BlockId} (hblock : block ∉ terminator.successors) (hunused : s.Unused block) :
  Ensures c s (terminate terminator) fun _ s' => s'.Unused block
  := by
  rintro _ _ ⟨⟩ d hd
  have hmodify := Function.block_modifyBlock hcurrent (fun b : Block => { b with terminator := terminator }) d
  rw [Function.successors, show _ = _ from hmodify] at hd
  split at hd
  · exact hblock hd
  · exact hunused d hd

/-- What is known while the branches of a conditional are made, which join in a block. -/
structure CondMade (c : LowerContext) (result : Ty) (passed₀ : Passed) (s₀ : LowerState)
    (scope : TypeScope) (join : BlockId) (param : Option VarId) (t : ValueType) (passed : Passed)
    (s : LowerState) : Prop where
  stage : Stage c result passed₀ s₀ passed s
  first : s₀.function.blocks.length ≤ join
  waits : Waits passed s join (s₀.here passed₀) param.toList
  typed : ∀ p, param = some p → s.function.varTypes[p]? = some t
  binds : s.Binds c scope

variable {passed₀ : Passed} {s₀ : LowerState} {join block : BlockId} {param : Option VarId}
  {t : ValueType}

theorem CondMade.ended (h : CondMade c result passed₀ s₀ scope join param t passed s)
    (h' : Stage c result passed₀ s₀ passed s' ∧ Ended s s') :
  CondMade c result passed₀ s₀ scope join param t passed s'
  := ⟨h'.1, h.first, h.waits.ended h'.2, fun p hp => h'.2.widens.getElem?_varTypes (h.typed p hp),
    h.binds.mono h'.2.widens.slots h'.2.frames⟩

/-- A branch of a conditional: control comes to its block, and goes on where the branches join. -/
theorem ensures_arm (h₀ : s₀.Ready c result passed₀ scope)
    (h : CondMade c result passed₀ s₀ scope join param t passed s)
    (hblock : s₀.function.blocks.length ≤ block ∧ Waits passed s block (s₀.here passed₀) []) (hne : join ≠ block)
    {armType : Ty} (haction : LowersInScope c result scope armType leaves action)
    (ht : param.isSome = true → c.valueType? type = some t ∧ (leaves = true ∨ armType = type)) :
  Ensures c s (do
      enterBlock block
      joinBranch span join param (← action))
    fun _ s' => ∃ passed', CondMade c result passed₀ s₀ scope join param t passed' s'
      ∧ (∀ id, id ≠ block → Waits passed s id (s₀.here passed₀) [] →
        Waits passed' s' id (s₀.here passed₀) [])
      ∧ (leaves = true → s.Unused join → s'.Unused join)
  := by
  set s₁ : LowerState := { s with current := block, isOpen := true } with hs₁
  have hstage₁ : Stage c result passed₀ s₀ passed s₁ := h.stage.enter hblock.1 hblock.2
  have hready₁ : s₁.Ready c result passed scope :=
    ⟨Live.enter h₀.toLive h.stage hblock.1 hblock.2 subset_rfl h.binds, h.stage.grown.inside h₀.inside⟩
  refine .bind_modify ((haction passed s₁ hready₁).bind fun value s₂ h₂ => ?_)
  obtain ⟨⟨passed₂, h₂, hvalue, hleaves⟩, hframes⟩ := h₂
  have hjoin₁ : Waits passed s₁ join (s₀.here passed₀) param.toList := h.waits.entered hne
  have h' : CondMade c result passed₀ s₀ scope join param t passed₂ s₂ :=
    ⟨hstage₁.reached h₂, h.first, hjoin₁.grown h₂.grown,
      fun p hp => h₂.grown.widens.getElem?_varTypes (h.typed p hp),
      h.binds.mono h₂.grown.widens.slots hframes⟩
  have hhere : s₂.isOpen = true → s₀.here passed₀ ⊆ s₂.here passed₂ := by
    intro hopen
    refine subset_trans ?_ (h₂.here hopen)
    rw [← hblock.2.passed]
    exact Set.subset_insert _ _
  refine (ensures_joinBranch h'.stage h.first h'.waits hhere ?_ span).mono fun _ s₃ h₃ => ?_
  · intro p v hp hv hopen
    obtain ⟨-, ⟨t', ht', hv'⟩, hdefined⟩ := hvalue v hv
    obtain ⟨htype, hleave⟩ := ht (by simp [hp])
    obtain rfl : armType = type := hleave.resolve_left fun hleave => by simp [hleaves hleave] at hopen
    obtain rfl := Option.some.inj (ht'.symm.trans htype)
    exact ⟨hdefined, t', hv', h'.typed p hp⟩
  · refine ⟨passed₂, h'.ended h₃, fun id hid hwaits => ?_, fun hleave hunused => ?_⟩
    · exact ((hwaits.entered hid).grown h₂.grown).ended h₃.2
    · refine h₃.2.unused (hleaves hleave) (h₂.grown.unused h.waits.lt ?_ hunused)
      intro htarget
      rw [IsTarget, show s₁.loop = s₀.loop from h.stage.grown.loop] at htarget
      exact absurd (h₀.loop join htarget).1 (Nat.not_lt_of_le h.first)

/-- The two branches of a conditional and what follows them. -/
theorem ensures_arms (span : Span) (h : s.Ready c result passed scope) {test : VarId}
    (htest : s.Holds c passed test .bool) {thenType elseType : Ty} {thenAction elseAction : Lower (Option VarId)}
    (hthen : LowersInScope c result scope thenType thenLeaves thenAction)
    (helse : LowersInScope c result scope elseType elseLeaves elseAction)
    (ht : t.isNone = false → c.valueType? type = some t
      ∧ (thenLeaves = true ∨ thenType = type) ∧ (elseLeaves = true ∨ elseType = type)) :
  Ensures c s (do
      let thenBlock ← freshBlock
      let elseBlock ← freshBlock
      let join ← freshBlock
      let param ← if t.isNone then pure none else some <$> blockParam join t
      terminate (.branch test thenBlock elseBlock)
      enterBlock thenBlock
      joinBranch span join param (← thenAction)
      enterBlock elseBlock
      joinBranch span join param (← elseAction)
      continueAt join
      return if ← isOpen then param else none)
    fun value s' => Gives c result scope type (thenLeaves && elseLeaves) passed s value s'
  := by
  refine (ensures_freshBlock h.toLive (s.here passed)).bind ?_
  rintro thenBlock s₁ ⟨passed₁, h₁⟩
  have hlive₁ := h₁.live h.toLive
  refine (ensures_freshBlock hlive₁ (s.here passed)).bind ?_
  rintro elseBlock s₂ ⟨passed₂, h₂⟩
  have hlive₂ := h₂.live hlive₁
  refine (ensures_freshBlock hlive₂ (s.here passed)).bind ?_
  rintro join s₃ ⟨passed₃, h₃⟩
  have hlive₃ := h₃.live hlive₂
  have h₀₃ := (h₁.toReached.trans hlive₁.isOpen h₂.toReached).trans hlive₂.isOpen h₃.toReached
  have hthen₃ := (h₁.waits.grown h₂.grown).grown h₃.grown
  have helse₃ := h₂.waits.grown h₃.grown
  have hfirst : s.function.blocks.length ≤ thenBlock := h₁.id_eq.ge
  have hlt₁ : thenBlock < elseBlock := h₂.id_eq ▸ h₁.waits.lt
  have hlt₂ : elseBlock < join := h₃.id_eq ▸ h₂.waits.lt
  -- what follows is the same with a parameter and without one
  have hrest : ∀ param s₄, (param.isSome = true → t.isNone = false) →
      CondMade c result passed s scope join param t passed₃ s₄ →
      s₄ = { s₃ with function := s₄.function } → s₃.function.Widens s₄.function →
      Waits passed₃ s₄ thenBlock (s.here passed) [] → Waits passed₃ s₄ elseBlock (s.here passed) [] →
      s₄.Unused join →
      Ensures c s₄ (do
        terminate (.branch test thenBlock elseBlock)
        enterBlock thenBlock
        joinBranch span join param (← thenAction)
        enterBlock elseBlock
        joinBranch span join param (← elseAction)
        continueAt join
        return if ← isOpen then param else none)
      fun value s' => Gives c result scope type (thenLeaves && elseLeaves) passed s value s' := by
    intro param s₄ hparam hmade hstate hwidens hthen₄ helse₄ hunused
    have hopen₄ : s₄.isOpen = true := by rw [hstate, hlive₃.isOpen]
    have hsame : s₄.here passed₃ = s₃.here passed₃ := by
      rw [LowerState.here, LowerState.here, show s₄.current = s₃.current by rw [hstate]]
    have hhere₄ : s.here passed ⊆ s₄.here passed₃ := hsame ▸ h₀₃.here hlive₃.isOpen
    obtain ⟨⟨vt, hvt, hv⟩, hdefined⟩ := htest.mono h₀₃ hlive₃.isOpen
    obtain rfl := valueType?_bool hvt
    have hdefined₄ : s₄.function.DefinesIn (s₄.here passed₃) test :=
      hwidens.definesIn hsame.ge hdefined
    have hnext : ∀ next ∈ [thenBlock, elseBlock], s.function.blocks.length ≤ next
        ∧ Waits passed₃ s₄ next (s.here passed) [] := by
      simp only [List.forall_mem_cons, List.not_mem_nil, false_imp_iff, implies_true, and_true]
      exact ⟨⟨hfirst, hthen₄⟩, hfirst.trans hlt₁.le, helse₄⟩
    have hend : Ensures c s₄ (terminate (.branch test thenBlock elseBlock)) fun _ s' =>
        (Stage c result passed s passed₃ s' ∧ Ended s₄ s') ∧ s'.Unused join := by
      refine .and (ensures_terminate hmade.stage hopen₄ (by simpa [Terminator.uses] using hdefined₄)
        (fun next hmem => ?_) (by simp) ?_ fun _ => ?_) (ensures_unused hmade.stage.sound.current ?_ hunused)
      · obtain ⟨hle, hwaits⟩ := hnext next (by simpa [Terminator.successors] using hmem)
        exact ⟨hwaits.lt, hwaits.passed.symm ▸ hhere₄, .inl hle⟩
      · rintro _ _ _ ⟨⟩ next hmem
        rw [(hnext next hmem).2.block]
      · refine Verify.branch_eq_ok.mpr ⟨hwidens.getElem?_varTypes hv, fun next hmem => ?_⟩
        obtain ⟨-, hwaits⟩ := hnext next hmem
        exact ⟨hwaits.lt, by rw [hwaits.block]⟩
      · simpa [Terminator.successors] using ⟨(hlt₁.trans hlt₂).ne', hlt₂.ne'⟩
    have hrun : Ensures c s₄ (do
        terminate (.branch test thenBlock elseBlock)
        (do enterBlock thenBlock
            joinBranch span join param (← thenAction))
        (do enterBlock elseBlock
            joinBranch span join param (← elseAction))
        continueAt join
        return if ← isOpen then param else none)
        fun value s' => Gives c result scope type (thenLeaves && elseLeaves) passed s value s' := by
      refine hend.bind ?_
      rintro _ s₅ ⟨h₅, hunused₅⟩
      have htyped : param.isSome = true → _ := fun hsome => ht (hparam hsome)
      refine (ensures_arm h (hmade.ended h₅) ⟨hfirst, hthen₄.ended h₅.2⟩ (hlt₁.trans hlt₂).ne' hthen
        fun hsome => ⟨(htyped hsome).1, (htyped hsome).2.1⟩).bind ?_
      rintro _ s₆ ⟨passed₆, h₆, hwaits₆, hunused₆⟩
      refine (ensures_arm h h₆ ⟨hfirst.trans hlt₁.le, hwaits₆ elseBlock hlt₁.ne' (helse₄.ended h₅.2)⟩
        hlt₂.ne' helse fun hsome => ⟨(htyped hsome).1, (htyped hsome).2.2⟩).bind ?_
      rintro _ s₇ ⟨passed₇, h₇, -, hunused₇⟩
      refine (ensures_continueAt h₇.stage h₇.first h₇.waits subset_rfl h₇.binds).bind ?_
      rintro _ s₈ ⟨h₈, hparams, hwidens₈, hclosed⟩
      refine .bind_isOpen (.pure ⟨passed₇, h₈, fun v hv => ?_, fun hleaves => ?_⟩)
      · split at hv
        · next hopen =>
          refine ⟨hopen, ⟨t, ?_, hwidens₈.getElem?_varTypes (h₇.typed v hv)⟩, hparams v (by simp [hv])⟩
          exact (htyped (by simp [hv])).1
        · cases hv
      · rw [Bool.and_eq_true] at hleaves
        exact hclosed (hunused₇ hleaves.2 (hunused₆ hleaves.1 hunused₅))
    simpa only [bind_assoc] using hrun
  dsimp only
  split
  · next hnone =>
    refine hrest none s₃ (by simp) ⟨?_, ?_, h₃.waits, by simp, hlive₃.binds⟩ rfl (.refl _) hthen₃ helse₃
      h₃.unused
    · exact (Stage.start h.sound).reached h₀₃
    · exact (hfirst.trans hlt₁.le).trans hlt₂.le
  · next hnone =>
    have hstage₃ := (Stage.start h.sound).reached h₀₃
    have hjoin : s.function.blocks.length ≤ join := (hfirst.trans hlt₁.le).trans hlt₂.le
    rw [map_eq_pure_bind, bind_assoc]
    refine (ensures_blockParam h.sound hstage₃ hjoin h₃.waits h₃.unused t).bind ?_
    rintro p s₄ ⟨h₄, hwaits₄, hp, hwidens₄, hstate₄, hothers₄, hlength₄⟩
    have hkeeps : ∀ {block}, block ≠ join → Waits passed₃ s₃ block (s.here passed) [] →
        Waits passed₃ s₄ block (s.here passed) [] := by
      intro block hne hwaits
      refine ⟨hlength₄ ▸ hwaits.lt, fun hwrites => hwaits.idle ?_, by rw [hothers₄ block hne, hwaits.block],
        hwaits.passed⟩
      rw [Writes, hstate₄] at hwrites
      exact hwrites
    refine hrest (some p) s₄ (fun _ => by simpa using hnone) ⟨h₄, hjoin, hwaits₄, ?_, ?_⟩ hstate₄ hwidens₄
      (hkeeps (hlt₁.trans hlt₂).ne hthen₃) (hkeeps hlt₂.ne helse₃) fun d hd => ?_
    · rintro _ ⟨⟩
      exact hp
    · exact hlive₃.binds.mono hwidens₄.slots (by rw [hstate₄])
    · rcases eq_or_ne d join with rfl | hne
      · simp [Function.successors, hwaits₄.block, Terminator.successors] at hd
      · rw [Function.successors, hothers₄ d hne] at hd
        exact h₃.unused d hd

theorem lowersInScope_branch_none (type : Ty) :
  LowersInScope c result scope type false (branch none)
  := by
  intro passed s h
  simp only [branch]
  exact .pure ⟨.statement (Live.reached h.toLive) (by simp), rfl⟩

theorem lowers_cond {isCheck : Bool} {thenBranch : Expr} {elseBranch : Option Expr} {thenType elseType : Ty}
    (htest : Lowers c result scope .bool scope' testLeaves (expr .operand test))
    (hthen : Lowers c result scope' thenType inner thenLeaves (expr (.statement [] true) thenBranch))
    (helse : LowersInScope c result scope' elseType elseLeaves (branch elseBranch))
    (htype : elseBranch.isSome = true → c.checked.type? id = some type
      ∧ (thenLeaves = true ∨ thenType = type) ∧ (elseLeaves = true ∨ elseType = type)) :
  Lowers c result scope type scope' (thenLeaves && elseLeaves)
    (form place id span (.cond isCheck test thenBranch elseBranch))
  := by
  intro passed s h
  simp only [form]
  refine htest.operand h (fun v passed₁ s₁ h₁ hready₁ hv => ?_)
    fun passed₁ s₁ h₁ hclosed => .pure (.lost h₁ hclosed)
  -- a conditional with one branch has no value
  have hrest : ∀ t : ValueType, (t.isNone = false → c.valueType? type = some t
      ∧ (thenLeaves = true ∨ thenType = type) ∧ (elseLeaves = true ∨ elseType = type)) → _ :=
    fun t ht => (ensures_arms span hready₁ hv hthen.inScope helse ht).mono
      fun _ _ hgives => hgives.after h₁ hready₁.isOpen
  cases elseBranch with
  | none =>
    simp only [Option.isSome_none, Bool.false_eq_true, if_false]
    rw [pure_bind]
    exact hrest .none (by simp [ValueType.isNone])
  | some e =>
    obtain ⟨hid, hleaves⟩ := htype rfl
    exact .bind_typeOf hid fun t ht => hrest t fun _ => ⟨ht, hleaves⟩

/-! ## Loops -/

theorem Lowers.discarded (h : Lowers c result scope type scope' leaves action)
    (hready : s.Ready c result passed scope) :
  Ensures c s (discard action) fun _ s' => ∃ passed', Reached c result scope' passed s passed' s'
  := ((h passed s hready).mono fun _ _ ⟨passed', h', _⟩ => ⟨passed', h'⟩).discard

/-- The body of a loop, between its test and its latch. -/
theorem ensures_loopBody {blocks : LoopBlocks} (h : LoopMade c result passed₀ s₀ blocks passed s)
    (hready : s.Ready c result passed scope) (hhere : s₀.here passed₀ ⊆ s.here passed)
    (hlatch : Waits passed s blocks.latch (s₀.here passed₀) [])
    (hbody : Lowers c result scope type scope' leaves (statements body)) :
  Ensures c s (discard (inLoop blocks.latch blocks.exit (inScope (statements body)))) fun _ s' =>
    ∃ passed', LoopMade c result passed₀ s₀ blocks passed' s' ∧ s'.Binds c scope
      ∧ (s'.isOpen = true → s₀.here passed₀ ⊆ s'.here passed')
      ∧ Waits passed' s' blocks.latch (s₀.here passed₀) []
  := by
  refine (ensures_inLoop h hready hhere hlatch fun s' hready' => ?_).discard
  exact (hbody.inScope passed s' hready').mono fun _ s'' ⟨⟨passed'', h'', _⟩, hframes⟩ =>
    ⟨passed'', scope, h'', hframes⟩

theorem lowers_whileLoop {isAsync : Bool} {t : Ty}
    (htest : Lowers c result scope .bool scope' testLeaves (expr .operand test))
    (hbody : Lowers c result scope' t inner bodyLeaves (statements body)) :
  Lowers c result scope type scope' false (form place id span (.whileLoop isAsync test body))
  := by
  intro passed s h
  simp only [form]
  refine (ensures_enterLoop h.toLive true).bind ?_
  rintro blocks s₁ ⟨passed₁, hmade₁, hlive₁, -, hhere₁, hlatch₁, hbody₁⟩
  have hready₁ : s₁.Ready c result passed₁ scope := ⟨hlive₁, hmade₁.stage.grown.inside h.inside⟩
  refine htest.operand hready₁ (fun v passed₂ s₂ h₂ hready₂ hv => ?_) fun passed₂ s₂ h₂ hclosed =>
    .pure (.lost ((hmade₁.reached h₂).stage.lost hclosed scope') hclosed)
  have hhere₂ := hhere₁.trans (h₂.here hready₂.isOpen)
  refine (ensures_enterBody h.toLive (hmade₁.reached h₂) hready₂.toLive hhere₂ hv
    ((hbody₁ rfl).grown h₂.grown)).bind ?_
  rintro _ s₃ ⟨hmade₃, hlive₃, -, hhere₃, hwaits₃⟩
  have hready₃ : s₃.Ready c result passed₂ scope' := ⟨hlive₃, hmade₃.stage.grown.inside h.inside⟩
  have hlatch₃ := hwaits₃ _ _ _ hmade₃.distinct.1.symm (hlatch₁.grown h₂.grown)
  refine (ensures_loopBody hmade₃ hready₃ hhere₃ hlatch₃ hbody).bind ?_
  rintro _ s₄ ⟨passed₄, hmade₄, hbinds₄, hhere₄, hlatch₄⟩
  refine (ensures_enterLatch h.toLive hmade₄ hbinds₄ hhere₄ hlatch₄).bind ?_
  rintro _ s₅ ⟨hmade₅, hlive₅, hhere₅⟩
  refine .bind_ite (m := fun s₆ => LoopMade c result passed s blocks passed₄ s₆ ∧ s₆.Binds c scope'
    ∧ s.here passed ⊆ s₆.here passed₄) (fun _ => ?_) (fun _ => ⟨hmade₅, hlive₅.binds, hhere₅⟩) ?_
  · refine ((ensures_runtimeCall hlive₅ .giveWay (by simp) _).mono ?_).discard
    rintro _ s₆ ⟨h₆, -⟩
    exact ⟨hmade₅.reached h₆.toReached, h₆.binds h₆.isOpen, hhere₅.trans (h₆.here h₆.isOpen)⟩
  · rintro s₆ ⟨hmade₆, hbinds₆, hhere₆⟩
    exact (ensures_leaveLoop hmade₆ hbinds₆ (fun _ => hhere₆) none).bind fun _ s₇ h₇ =>
      .pure (.statement h₇ (by simp))

theorem lowers_loop {t : Ty} (hbody : Lowers c result scope t inner bodyLeaves (statements body)) :
  Lowers c result scope type scope false (form place id span (.loop body))
  := by
  intro passed s h
  simp only [form]
  refine (ensures_enterLoop h.toLive false).bind ?_
  rintro blocks s₁ ⟨passed₁, hmade₁, hlive₁, -, hhere₁, hlatch₁, -⟩
  have hready₁ : s₁.Ready c result passed₁ scope := ⟨hlive₁, hmade₁.stage.grown.inside h.inside⟩
  refine (ensures_loopBody hmade₁ hready₁ hhere₁ hlatch₁ hbody).bind ?_
  rintro _ s₂ ⟨passed₂, hmade₂, hbinds₂, hhere₂, hlatch₂⟩
  refine (ensures_enterLatch h.toLive hmade₂ hbinds₂ hhere₂ hlatch₂).bind ?_
  rintro _ s₃ ⟨hmade₃, hlive₃, hhere₃⟩
  exact (ensures_leaveLoop hmade₃ hlive₃.binds (fun _ => hhere₃) none).bind fun _ s₄ h₄ =>
    .pure (.statement h₄ (by simp))

theorem ensures_inductionFor :
  Ensures c s (inductionFor init test step body) fun _ s' => s' = s
  := by
  unfold inductionFor
  split
  · exact .pure rfl
  · refine .bind_slot? ?_
    split
    · exact .pure rfl
    · refine .bind_get ?_
      split
      · exact .pure rfl
      · exact .pure rfl

theorem lowers_forLoop {initType stepType bodyType : Ty} {middle inner' inner'' : TypeScope}
    {initLeaves stepLeaves : Bool} (hinit : Lowers c result scope initType middle initLeaves (expr .operand init))
    (htest : Lowers c result middle .bool inner testLeaves (expr .operand test))
    (hbody : Lowers c result inner bodyType inner' bodyLeaves (statements body))
    (hstep : Lowers c result inner stepType inner'' stepLeaves (expr .operand step)) :
  Lowers c result scope type scope false (form place id span (.forLoop init test step body))
  := by
  intro passed s h
  simp only [form]
  refine (ensures_inScope (v := fun value => value) h.toLive fun s₁ hready₁ _ => ?_).mono
    fun value s' h' => h'.1
  refine (hinit.discarded hready₁).bind ?_
  rintro _ s₂ ⟨passed₂, h₂⟩
  refine .bind_isOpen ?_
  cases hopen₂ : s₂.isOpen with
  | false => exact .pure ⟨scope, .lost h₂ hopen₂⟩
  | true =>
    have hready₂ := hready₁.after h₂ hopen₂
    refine Ensures.bind ensures_inductionFor ?_
    rintro counter _ rfl
    refine (ensures_enterLoop hready₂.toLive true).bind ?_
    rintro blocks s₃ ⟨passed₃, hmade₃, hlive₃, -, hhere₃, hlatch₃, hbody₃⟩
    have hready₃ : s₃.Ready c result passed₃ middle := ⟨hlive₃, hmade₃.stage.grown.inside hready₂.inside⟩
    refine htest.operand hready₃ (fun v passed₄ s₄ h₄ hready₄ hv => ?_) fun passed₄ s₄ h₄ hclosed =>
      .pure ⟨scope, .lost (h₂.trans hopen₂ ((hmade₃.reached h₄).stage.lost hclosed scope)) hclosed⟩
    have hhere₄ := hhere₃.trans (h₄.here hready₄.isOpen)
    refine (ensures_enterBody hready₂.toLive (hmade₃.reached h₄) hready₄.toLive hhere₄ hv
      ((hbody₃ rfl).grown h₄.grown)).bind ?_
    rintro _ s₅ ⟨hmade₅, hlive₅, -, hhere₅, hwaits₅⟩
    have hready₅ : s₅.Ready c result passed₄ inner := ⟨hlive₅, hmade₅.stage.grown.inside hready₂.inside⟩
    have hlatch₅ := hwaits₅ _ _ _ hmade₅.distinct.1.symm (hlatch₃.grown h₄.grown)
    refine (ensures_loopBody hmade₅ hready₅ hhere₅ hlatch₅ hbody).bind ?_
    rintro _ s₆ ⟨passed₆, hmade₆, hbinds₆, hhere₆, hlatch₆⟩
    refine (ensures_enterLatch hready₂.toLive hmade₆ hbinds₆ hhere₆ hlatch₆).bind ?_
    rintro _ s₇ ⟨hmade₇, hlive₇, hhere₇⟩
    have hready₇ : s₇.Ready c result passed₆ inner := ⟨hlive₇, hmade₇.stage.grown.inside hready₂.inside⟩
    refine (hstep.discarded hready₇).bind ?_
    rintro _ s₈ ⟨passed₈, h₈⟩
    obtain ⟨scope'', hbinds₈⟩ := h₈.sound.binds
    refine (ensures_leaveLoop (hmade₇.reached h₈) hbinds₈ (fun hopen => hhere₇.trans (h₈.here hopen))
      counter).bind fun _ s₉ h₉ => .pure ?_
    exact ⟨scope'', .statement (h₂.trans hopen₂ h₉) (by simp)⟩

end

end Lower

end FormCompiler
