import FormCompiler.Optimize.Fold
import FormCompiler.Proofs.Optimize.Sound

/-!
# Operations, checks and branches on constants

Operations on constants become constants, checks that constants pass are dropped, and branches that
constants decide become jumps. In all three cases the states of runs stay the same, since the
variables that are looked up have the values of the constants.
-/

namespace FormCompiler.Flow

open Verify (IsSite IsDefinedAt Site)

namespace Fold

variable {W : World} {f : Function}
variable {constants : List (VarId × Const)} {type : ValueType} {c : Const}

/-! ## Operations -/

/-- What the folding of a value says is what the value is. -/
theorem eval_of_value? (hW : W.IsExact) {value : Value} (h : value? constants type value = some c)
    {vars : VarId → Val} (hvars : ∀ v ∈ value.uses, ∀ d, constants.lookup v = some d → vars v = d.val) :
  value.eval W type vars = some c.val
  := by
  cases value with
  | const | copy => cases h
  | binary op lhs rhs =>
    obtain ⟨a, ha, h⟩ := Option.bind_eq_some_iff.mp h
    obtain ⟨b, hb, h⟩ := Option.bind_eq_some_iff.mp h
    obtain ⟨hvalue, htrap⟩ := Const.binary?_sound hW h
    rw [Value.eval, hvars lhs (by simp [Value.uses]) a ha, hvars rhs (by simp [Value.uses]) b hb, htrap,
      hvalue]
    rfl
  | unary op operand =>
    obtain ⟨a, ha, h⟩ := Option.bind_eq_some_iff.mp h
    rw [Value.eval, hvars operand (by simp [Value.uses]) a ha, Const.unary?_sound hW h]
  | cast source =>
    obtain ⟨a, ha, h⟩ := Option.bind_eq_some_iff.mp h
    rw [Value.eval, hvars source (by simp [Value.uses]) a ha, hW.convert h]

theorem constHasType_of_ofInt? {bits : Nat} {n : Int} (h : Const.ofInt? bits n = some c) :
  Verify.constHasType c (.int bits) = true
  := by
  obtain rfl := Const.eq_of_ofInt? h
  rfl

theorem constHasType_of_ofDouble? {x : UInt64} (h : Const.ofDouble? x type = some c) :
  Verify.constHasType c type = true
  := by
  unfold Const.ofDouble? at h
  split at h
  · obtain ⟨y, -, rfl⟩ := Option.map_eq_some_iff.mp h
    rfl
  · split at h
    · obtain rfl := Option.some.inj h
      rfl
    · cases h
  · cases h

/-- Comparisons and logical operations give truth values, all others values of the wanted type. -/
theorem constHasType_of_binary? {op : BinaryOp} {lhs rhs : Const} (h : Const.binary? op lhs rhs type = some c)
    (hbool : op.isComparison = true ∨ op.isLogical = true → type = .bool) :
  Verify.constHasType c type = true
  := by
  have hcompare : ∀ {ordering : Ordering} {b : Bool}, Const.comparison? ordering op = some b →
      type = .bool := by
    intro ordering b hb
    refine hbool (.inl ?_)
    cases op <;> first | rfl | cases hb
  unfold Const.binary? at h
  split at h
  · next a b =>
    unfold Const.binaryInt? at h
    split at h
    · obtain ⟨r, hr, rfl⟩ := Option.map_eq_some_iff.mp h
      rw [hcompare hr]
      rfl
    · split at h
      · obtain ⟨n, -, hc⟩ := Option.bind_eq_some_iff.mp h
        exact constHasType_of_ofInt? hc
      · cases h
  · next a b =>
    unfold Const.binaryFloat? at h
    split at h
    · split at h
      · obtain ⟨ordering, -, h⟩ := Option.bind_eq_some_iff.mp h
        obtain ⟨r, hr, rfl⟩ := Option.map_eq_some_iff.mp h
        rw [hcompare hr]
        rfl
      · split at h
        · exact constHasType_of_ofDouble? h
        · exact constHasType_of_ofDouble? h
        · exact constHasType_of_ofDouble? h
        · split at h
          · cases h
          · exact constHasType_of_ofDouble? h
        · obtain ⟨x, -, h⟩ := Option.bind_eq_some_iff.mp h
          exact constHasType_of_ofDouble? h
        · cases h
    · cases h
  · obtain rfl : type = .bool := by
      refine hbool ?_
      cases op <;> first | exact .inl rfl | exact .inr rfl | cases h
    split at h
    · obtain rfl := Option.some.inj h
      rfl
    · obtain rfl := Option.some.inj h
      rfl
    · obtain rfl := Option.some.inj h
      rfl
    · obtain rfl := Option.some.inj h
      rfl
    · cases h
  · obtain rfl : type = .bool := by
      refine hbool ?_
      cases op <;> first | exact .inl rfl | cases h
    split at h
    · obtain rfl := Option.some.inj h
      rfl
    · obtain rfl := Option.some.inj h
      rfl
    · cases h
  · cases h

theorem constHasType_of_cast? {operand : Const} (h : Const.cast? operand type = some c) :
  Verify.constHasType c type = true
  := by
  unfold Const.cast? at h
  split at h
  · exact constHasType_of_ofInt? h
  · exact constHasType_of_ofDouble? h
  · exact constHasType_of_ofDouble? h
  · obtain ⟨n, -, h⟩ := Option.bind_eq_some_iff.mp h
    exact constHasType_of_ofInt? h
  · cases h

/-- The constant that an operation gives has the type of the variable that is set to it. -/
theorem value_of_value? {dst : VarId} {value : Value} (h : value? constants (f.varType dst) value = some c)
    (hvalue : Verify.value f dst value = .ok ()) :
  Verify.value f dst (.const c) = .ok ()
  := by
  have htype : ∀ {t}, f.varTypes[dst]? = some t → f.varType dst = t := by
    intro t ht
    simp [Function.varType, List.getD_eq_getElem?_getD, ht]
  have hexists : ∃ t, f.varTypes[dst]? = some t := by
    cases value with
    | const | copy => cases h
    | cast source =>
      obtain ⟨t, ht, -⟩ := Verify.expectThat_eq_ok.mp (check_bind_eq_ok.mp hvalue).2
      exact ⟨t, ht⟩
    | unary op operand =>
      obtain ⟨t, ht, -⟩ := Verify.same_eq_ok.mp (check_bind_eq_ok.mp hvalue).1
      exact ⟨t, ht⟩
    | binary op lhs rhs =>
      have hrest := (check_bind_eq_ok.mp hvalue).2
      split at hrest
      · exact ⟨_, Verify.expect_eq_ok.mp (check_bind_eq_ok.mp hrest).2⟩
      split at hrest
      · exact ⟨_, Verify.expect_eq_ok.mp (check_bind_eq_ok.mp hrest).2⟩
      split at hrest
      · obtain ⟨t, ht, -⟩ := Verify.same_eq_ok.mp (check_bind_eq_ok.mp hrest).2
        exact ⟨t, ht⟩
      · obtain ⟨t, ht, -⟩ := Verify.same_eq_ok.mp (check_bind_eq_ok.mp hrest).2
        exact ⟨t, ht⟩
  obtain ⟨t, ht⟩ := hexists
  rw [htype ht] at h
  refine Verify.expectThat_eq_ok.mpr ⟨t, ht, ?_⟩
  cases value with
  | const | copy => cases h
  | cast source =>
    obtain ⟨a, -, h⟩ := Option.bind_eq_some_iff.mp h
    exact constHasType_of_cast? h
  | unary op operand =>
    obtain ⟨a, -, h⟩ := Option.bind_eq_some_iff.mp h
    have hrest := (check_bind_eq_ok.mp hvalue).2
    unfold Const.unary? at h
    split at h
    · obtain ⟨n, -, h⟩ := Option.bind_eq_some_iff.mp h
      exact constHasType_of_ofInt? h
    · exact constHasType_of_ofDouble? h
    · obtain rfl := Option.some.inj h
      obtain rfl := Option.some.inj (ht.symm.trans (Verify.expect_eq_ok.mp hrest))
      rfl
    · obtain rfl := Option.some.inj h
      obtain ⟨t', ht', hint⟩ := Verify.expectThat_eq_ok.mp hrest
      obtain rfl := Option.some.inj (ht.symm.trans ht')
      exact hint
    · cases h
  | binary op lhs rhs =>
    obtain ⟨a, -, h⟩ := Option.bind_eq_some_iff.mp h
    obtain ⟨b, -, h⟩ := Option.bind_eq_some_iff.mp h
    refine constHasType_of_binary? h fun hop => ?_
    have hrest := (check_bind_eq_ok.mp hvalue).2
    split at hrest
    · exact Option.some.inj (ht.symm.trans (Verify.expect_eq_ok.mp (check_bind_eq_ok.mp hrest).2))
    next hcomparison =>
    rw [if_pos (hop.resolve_left hcomparison)] at hrest
    exact Option.some.inj (ht.symm.trans (Verify.expect_eq_ok.mp (check_bind_eq_ok.mp hrest).2))

/-- The instruction that an operation on constants becomes. -/
def foldedInstr? (f : Function) : Instr → Option Instr
  | .set dst value => (value? f.constants (f.varType dst) value).map fun c => .set dst (.const c)
  | _ => none

theorem values_eq (f : Function) :
  values f = Pass.replaceInstrs (foldedInstr? f) f
  := rfl

theorem exists_of_foldedInstr? {i new : Instr} (h : foldedInstr? f i = some new) :
  ∃ dst value c, i = .set dst value ∧ new = .set dst (.const c)
    ∧ value? f.constants (f.varType dst) value = some c
  := by
  cases i with
  | set dst value =>
    obtain ⟨c, hc, rfl⟩ := Option.map_eq_some_iff.mp h
    exact ⟨dst, value, c, rfl, rfl, hc⟩
  | call | load | store | loadGlobal | loadElement | storeElement | boundsCheck | makeArray | makeTuple
  | extract | alloc | free | release | loadLanes | storeLanes | binaryLanes => cases h

theorem isSound_values :
  values.IsSound
  := by
  intro f hf
  have hssa := Function.isSsa_of_verify hf
  rw [values_eq]
  refine (Pass.sameShape_replaceInstrs _ f).sound hf rfl rfl _ (Pass.instrs_replaceInstrs _ f)
    (fun id j i hi => ?_) fun W hW =>
      ⟨_, (equations_set hssa W W.caller).invariant hssa, fun {id j i s} hid hi hholds => ?_⟩
  · cases hnew : foldedInstr? f i with
    | none => exact .refl hf hi
    | some new =>
      obtain ⟨dst, value, c, rfl, rfl, hc⟩ := exists_of_foldedInstr? hnew
      exact ⟨rfl, nofun, value_of_value? hc (Verify.instr_of_mem hf (List.mem_of_getElem? hi))⟩
  · cases hnew : foldedInstr? f i with
    | none => rfl
    | some new =>
      obtain ⟨dst, value, c, rfl, rfl, hc⟩ := exists_of_foldedInstr? hnew
      have hvars : ∀ v ∈ value.uses, ∀ d, f.constants.lookup v = some d → s.vars v = d.val := by
        intro v hv d hd
        have hdefined := hssa.isDefinedAt_of_mem_uses hid (hssa.getElem?_block hid) hi hv
        exact (areConstants_constants f).vars hd hholds hdefined
      simp only [Option.getD_some, Instr.run, Instr.act, eval_of_value? hW hc hvars]
      rfl

/-! ## Checks -/

/-- Whether a check has to stay. -/
def isNeeded (f : Function) : Instr → Bool
  | .boundsCheck index length => !isInBounds length (f.constants.lookup index)
  | _ => true

theorem boundsChecks_eq (f : Function) :
  boundsChecks f = Pass.keepInstrs (isNeeded f) f
  := rfl

theorem exists_of_isNeeded {i : Instr} (h : isNeeded f i = false) :
  ∃ index length n, i = .boundsCheck index length ∧ f.constants.lookup index = some (.int n)
    ∧ 0 ≤ n ∧ n < length
  := by
  cases i with
  | boundsCheck index length =>
    simp only [isNeeded, Bool.not_eq_false'] at h
    unfold isInBounds at h
    split at h
    · next n hn => exact ⟨index, length, n, rfl, hn, by simpa using h⟩
    · cases h
  | set | call | load | store | loadGlobal | loadElement | storeElement | makeArray | makeTuple | extract
  | alloc | free | release | loadLanes | storeLanes | binaryLanes => cases h

/-- A check is passed if its index is a constant in range. -/
theorem run_boundsCheck {type : VarId → ValueType} {s : State} {index : VarId} {length : Nat} {n : Int}
    (hindex : s.vars index = .int n) (hge : 0 ≤ n) (hlt : n < length) :
  (Instr.boundsCheck index length).run W W.caller type s = .ok s
  := by
  have hbelow : (s.vars index).isBelow length = true := by
    rw [hindex]
    simp [Val.isBelow, hge, hlt]
  refine Instr.run_eq_ok.mpr ⟨.nothing, s.store, ?_, ?_⟩
  · simp only [Instr.act, hbelow, if_true]
  · rw [show (Instr.boundsCheck index length).def? = none from rfl, setVar_none]

theorem isSound_boundsChecks :
  boundsChecks.IsSound
  := by
  intro f hf
  have hssa := Function.isSsa_of_verify hf
  rw [boundsChecks_eq]
  constructor
  · refine Pass.verify_keepInstrs hf fun hi => ?_
    obtain ⟨index, length, n, rfl, -⟩ := exists_of_isNeeded hi
    rfl
  · intro W hW
    have hinvariant := (equations_set hssa W W.caller).invariant hssa
    have hfollows : Follows W f (Pass.keepInstrs (isNeeded f) f).2 (fun _ => kept (isNeeded f))
        fun id j s t => s = t ∧ HoldAt f (SetHolds f W) id j s.vars := by
      refine .of_eq hinvariant rfl rfl (fun id => ?_) (fun {id j i s} hid hi hholds => ?_) fun _ _ =>
        (Pass.sameShape_keepInstrs f (isNeeded f)).run_terminator _ _
      · rw [Pass.instrs_keepInstrs]
        exact filter_eq_flatMap_kept _ _ 0
      · cases hneeded : isNeeded f i with
        | true =>
          simp only [kept, hneeded, if_true, runAll_singleton]
          rfl
        | false =>
          obtain ⟨index, length, n, rfl, hn, hge, hlt⟩ := exists_of_isNeeded hneeded
          have hdefined := hssa.isDefinedAt_of_mem_uses hid (hssa.getElem?_block hid) hi
            (List.mem_singleton_self index)
          have hindex := (areConstants_constants f).vars hn hholds hdefined
          simp only [kept, hneeded, Bool.false_eq_true, if_false, runAll_nil]
          exact (run_boundsCheck hindex hge hlt).symm
    exact hfollows.lockstep.sameBehaviour

/-! ## Branches -/

/-- The terminator of a block, after branches have been decided. -/
def decidedTerminator (f : Function) (t : Terminator) : Terminator :=
  match decided? f.constants t with
  | some target => .jump target []
  | none => t

theorem block_branches (f : Function) (id : BlockId) :
  (branches f).2.block id = { f.block id with terminator := decidedTerminator f (f.block id).terminator }
  := by
  refine (Pass.block_onBlocks rfl f id).trans ?_
  simp only [decidedTerminator]
  cases decided? f.constants (f.block id).terminator <;> rfl

theorem exists_of_decided? {t : Terminator} {target : BlockId} (h : decided? f.constants t = some target) :
  ∃ test thenBlock elseBlock, t = .branch test thenBlock elseBlock
    ∧ target ∈ [thenBlock, elseBlock]
    ∧ ∀ vars : VarId → Val, (∀ c, f.constants.lookup test = some c → vars test = c.val) →
      target = if (vars test).isTrue then thenBlock else elseBlock
  := by
  cases t with
  | branch test thenBlock elseBlock =>
    refine ⟨test, thenBlock, elseBlock, rfl, ?_⟩
    simp only [decided?] at h
    split at h
    · next b hb =>
      obtain rfl := Option.some.inj h
      refine ⟨by cases b <;> simp, fun vars hvars => ?_⟩
      rw [hvars _ hb]
      rfl
    · split at h
      · next heq =>
        obtain rfl := Option.some.inj h
        subst heq
        simp
      · cases h
  | ret | jump | unreachable => cases h

theorem canEnd_decidedTerminator (hf : f.verify = .ok ()) (id : BlockId) :
  CanEnd f id (decidedTerminator f (f.block id).terminator)
  := by
  unfold decidedTerminator
  cases hdecided : decided? f.constants (f.block id).terminator with
  | none => exact .refl hf id
  | some target =>
    obtain ⟨test, thenBlock, elseBlock, hbranch, hmem, -⟩ := exists_of_decided? hdecided
    refine ⟨fun next hnext => ?_, by simp [Terminator.uses], fun hid => ?_⟩
    · obtain rfl : next = target := by simpa [Terminator.successors] using hnext
      simpa [Function.successors, hbranch, Terminator.successors] using hmem
    · have hcheck := Verify.terminator_of_lt hf hid
      rw [hbranch] at hcheck
      obtain ⟨hlt, hparams⟩ := (Verify.branch_eq_ok.mp hcheck).2 target hmem
      exact Verify.jump_eq_ok.mpr ⟨hlt, by rw [hparams], by simp⟩

/-- A branch that is decided goes to the block that it would go to. -/
theorem run_decidedTerminator (hf : f.verify = .ok ()) {id : BlockId} (hid : id ∈ f.reversePostorder)
    {s : State} (hholds : HoldAt f (SetHolds f W) id (f.block id).instrs.length s.vars) :
  (decidedTerminator f (f.block id).terminator).run f s = (f.block id).terminator.run f s
  := by
  have hssa := Function.isSsa_of_verify hf
  have hblock := hssa.getElem?_block hid
  unfold decidedTerminator
  cases hdecided : decided? f.constants (f.block id).terminator with
  | none => rfl
  | some target =>
    obtain ⟨test, thenBlock, elseBlock, hbranch, hmem, htarget⟩ := exists_of_decided? hdecided
    have hparams := (hssa.branch hblock hbranch target hmem).2
    have htest : IsDefinedAt f id (f.block id).instrs.length test := by
      rw [Block.length_instrs]
      exact hssa.isDefinedAt_of_mem_terminator hid hblock (by simp [hbranch, Terminator.uses])
    have hvars : ∀ c, f.constants.lookup test = some c → s.vars test = c.val :=
      fun c hc => (areConstants_constants f).vars hc hholds htest
    simp only [hbranch, Terminator.run, hparams, ← htarget s.vars hvars]
    rfl

theorem isSound_branches :
  branches.IsSound
  := by
  intro f hf
  have hssa := Function.isSsa_of_verify hf
  have hframe : SameFrame f (branches f).2 :=
    ⟨rfl, rfl, rfl, rfl, rfl, rfl, by simp [branches, Pass.onBlocks], fun id => by rw [block_branches]⟩
  refine hframe.sound hf (fun _ line => line.1) (fun id => ?_) (fun id j i hi => .refl hf hi)
    (fun id => ?_) fun W hW => ⟨_, (equations_set hssa W W.caller).invariant hssa, fun _ _ _ => rfl,
      fun {id s} hid hholds => ?_⟩
  · rw [block_branches]
    exact (List.zipIdx_map_fst 0 _).symm
  · rw [block_branches]
    exact canEnd_decidedTerminator hf id
  · rw [block_branches]
    exact run_decidedTerminator hf hid hholds

end Fold

end FormCompiler.Flow
