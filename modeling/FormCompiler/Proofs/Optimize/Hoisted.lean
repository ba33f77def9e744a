import FormCompiler.Optimize.Hoist
import FormCompiler.Proofs.Flow.Rename
import FormCompiler.Proofs.Flow.Lockstep
import FormCompiler.Proofs.Flow.Replace

/-!
# Loop invariants

Instructions are moved in front of a loop one at a time, so one move is what has to be looked at
(`Move`). After the move the variable has its value already when control gets into the loop. It keeps
this value there, as nothing in the loop changes what it is computed from (`Current`), and outside of
the loop it can only be read where the loop had defined it.
-/

namespace FormCompiler.Flow

open Verify (IsSite IsDefinedAt Site)

namespace Hoist

variable {f : Function} {l : LoopInfo} {id : BlockId} {position : Nat} {line : Line} {v : VarId}

/-- An instruction of a loop that gives the same value in every round. -/
structure Move (f : Function) (l : LoopInfo) (id : BlockId) (position : Nat) (line : Line) (v : VarId) :
    Prop where
  ssa : f.IsSsa
  loop : l.IsWellFormed f
  entry : f.entry ∉ l.blocks
  mem : id ∈ l.blocks
  reached : id ∈ f.reversePostorder
  found : (f.block id).body[position]? = some line
  defines : line.instr.def? = some v
  isPure : line.instr.isPure = true
  reads : ∀ u ∈ line.instr.uses, ∀ d ∈ l.blocks, u ∉ (f.block d).defs
  slots : ∀ slot, line.instr.readSlot? = some slot → ∀ d ∈ l.blocks, ∀ i ∈ (f.block d).instrs,
    i.writtenSlot? ≠ some slot

namespace Move

variable {d : BlockId}

variable (h : Move f l id position line v)

include h

theorem preheader_mem :
  l.preheader ∈ f.reversePostorder
  := h.loop.preheader_mem h.entry h.mem h.reached

theorem ne_preheader :
  id ≠ l.preheader
  := fun heq => h.loop.outside (heq ▸ h.mem)

theorem getElem?_instrs :
  (f.block id).instrs[position]? = some line.instr
  := by
  simp [Block.instrs, h.found]

theorem isSite :
  IsSite f v ⟨id, some position⟩
  := ⟨f.block id, h.ssa.getElem?_block h.reached, line.instr, h.getElem?_instrs, h.defines⟩

theorem mem_defs :
  v ∈ (f.block id).defs
  := mem_defs_iff.mpr ⟨_, rfl, h.isSite⟩

/-! ## The function after a move -/

theorem block_moveTo (d : BlockId) :
  (moveTo f l.preheader id position).block d
    = if d = l.preheader then { f.block d with body := (f.block d).body ++ [line] }
      else if d = id then { f.block d with body := (f.block d).body.eraseIdx position }
      else f.block d
  := by
  have hlt : ∀ {x}, x ∈ f.reversePostorder → x < f.blocks.length := fun hx =>
    (List.getElem?_eq_some_iff.mp (h.ssa.getElem?_block hx)).1
  unfold moveTo
  rw [h.found]
  simp only
  rw [Function.block_modifyBlock]
  · split
    · next heq =>
      rw [Function.block_modifyBlock (hlt h.reached), if_neg (heq ▸ h.ne_preheader.symm)]
    · rw [Function.block_modifyBlock (hlt h.reached)]
  · simpa [Function.modifyBlock] using hlt h.preheader_mem

theorem sameShape :
  SameShape f (moveTo f l.preheader id position)
  := by
  refine ⟨?_, ?_, ?_, ?_, ?_, fun d => ?_, fun d => ?_⟩
  · simp only [moveTo, h.found, Function.modifyBlock]
  · simp only [moveTo, h.found, Function.modifyBlock]
  · simp only [moveTo, h.found, Function.modifyBlock]
  · simp only [moveTo, h.found, Function.modifyBlock]
  · simp only [moveTo, h.found, Function.modifyBlock, List.length_modify]
  · rw [h.block_moveTo]
    split
    · rfl
    · split <;> rfl
  · rw [h.block_moveTo]
    split
    · rfl
    · split <;> rfl

theorem instrs_preheader :
  ((moveTo f l.preheader id position).block l.preheader).instrs
    = (f.block l.preheader).instrs ++ [line.instr]
  := by
  rw [h.block_moveTo, if_pos rfl]
  simp [Block.instrs]

theorem instrs_self :
  ((moveTo f l.preheader id position).block id).instrs = (f.block id).instrs.eraseIdx position
  := by
  rw [h.block_moveTo, if_neg h.ne_preheader, if_pos rfl]
  simp [Block.instrs, List.eraseIdx_map]

theorem block_of_ne (hpreheader : d ≠ l.preheader) (hid : d ≠ id) :
  (moveTo f l.preheader id position).block d = f.block d
  := by
  rw [h.block_moveTo, if_neg hpreheader, if_neg hid]

/-- The instructions of the block around the one that is moved. -/
theorem instrs_eq :
  (f.block id).instrs
    = (f.block id).instrs.take position ++ line.instr :: (f.block id).instrs.drop (position + 1)
  := by
  obtain ⟨hlt, hget⟩ := List.getElem?_eq_some_iff.mp h.getElem?_instrs
  rw [← hget, List.cons_getElem_drop_succ, List.take_append_drop]

/-- The variable is now defined in the preheader, and all others are where they were. -/
theorem mem_defs_moveTo {w : VarId} :
  w ∈ ((moveTo f l.preheader id position).block d).defs
    ↔ (w ≠ v ∧ w ∈ (f.block d).defs) ∨ (w = v ∧ d = l.preheader)
  := by
  have hunique : ∀ {d}, v ∈ (f.block d).defs → d = id := by
    intro d hd
    obtain ⟨site, rfl, hsite⟩ := mem_defs_iff.mp hd
    rw [h.ssa.unique hsite h.isSite]
  by_cases hpreheader : d = l.preheader
  · subst hpreheader
    rw [Block.defs, h.instrs_preheader, h.sameShape.blockParams, List.filterMap_append,
      ← List.append_assoc]
    have hv : v ∉ (f.block l.preheader).defs := fun hv => h.ne_preheader (hunique hv).symm
    simp only [List.filterMap_cons, h.defines, List.filterMap_nil, List.mem_append, List.mem_singleton]
    constructor
    · rintro (hw | rfl)
      · have hw : w ∈ (f.block l.preheader).defs := List.mem_append.mpr hw
        exact .inl ⟨fun heq => hv (heq ▸ hw), hw⟩
      · simp
    · rintro (⟨-, hw⟩ | ⟨rfl, -⟩)
      · exact .inl (List.mem_append.mp hw)
      · exact .inr rfl
  by_cases hid : d = id
  · subst hid
    have hinstrs := h.instrs_eq
    rw [Block.defs, h.instrs_self, h.sameShape.blockParams, List.eraseIdx_eq_take_drop_succ]
    have hdefs : (f.block d).defs = (f.block d).params
        ++ (((f.block d).instrs.take position).filterMap Instr.def?
          ++ v :: ((f.block d).instrs.drop (position + 1)).filterMap Instr.def?) := by
      conv_lhs => rw [Block.defs, hinstrs]
      rw [List.filterMap_append, List.filterMap_cons, h.defines]
    obtain ⟨-, hnodup, -⟩ := Function.isSsa_iff.mp h.ssa
    have hblock := (nodup_defs_iff_blocks.mp hnodup).1 d
    rw [hdefs] at hblock ⊢
    rw [List.filterMap_append]
    -- The variable occurs once in the middle of the list.
    have hperm := @List.perm_middle _ v
      ((f.block d).params ++ ((f.block d).instrs.take position).filterMap Instr.def?)
      (((f.block d).instrs.drop (position + 1)).filterMap Instr.def?)
    rw [List.append_assoc] at hperm
    have hcons := List.nodup_cons.mp (hperm.nodup_iff.mp hblock)
    rw [hperm.mem_iff, List.mem_cons, ← List.append_assoc]
    constructor
    · intro hw
      exact .inl ⟨fun heq => hcons.1 (heq ▸ hw), .inr hw⟩
    · rintro (⟨hne, hw⟩ | ⟨-, hd⟩)
      · exact hw.resolve_left hne
      · exact absurd hd hpreheader
  · rw [h.block_of_ne hpreheader hid]
    constructor
    · exact fun hw => .inl ⟨fun heq => hid (hunique (heq ▸ hw)), hw⟩
    · rintro (⟨-, hw⟩ | ⟨-, hd⟩)
      · exact hw
      · exact absurd hd hpreheader

/-- What was known at the start of a block is still known there. -/
theorem isKnown (hd : d ∈ f.reversePostorder) {w : VarId} (hw : IsKnown f d w) :
  IsKnown (moveTo f l.preheader id position) d w
  := by
  rcases hw with hparam | ⟨e, hne, hdominates, hdef⟩
  · exact .inl (h.sameShape.blockParams d ▸ hparam)
  by_cases hwv : w = v
  · subst hwv
    obtain ⟨site, rfl, hsite⟩ := mem_defs_iff.mp hdef
    obtain rfl := h.ssa.unique hsite h.isSite
    refine .inr ⟨l.preheader, ?_, ?_, h.mem_defs_moveTo.mpr (.inr ⟨rfl, rfl⟩)⟩
    · rintro rfl
      rw [h.loop.not_dominates_preheader h.entry h.mem h.reached] at hdominates
      cases hdominates
    · have hbefore := h.loop.preheader_dominates h.entry h.mem h.reached
      exact h.sameShape.dominates hd (Function.dominates_trans hbefore hdominates)
  · exact .inr ⟨e, hne, h.sameShape.dominates hd hdominates, h.mem_defs_moveTo.mpr (.inl ⟨hwv, hdef⟩)⟩

theorem isKnown_self :
  IsKnown (moveTo f l.preheader id position) id v
  := .inr ⟨l.preheader, h.ne_preheader.symm,
    h.sameShape.dominates h.reached (h.loop.preheader_dominates h.entry h.mem h.reached),
    h.mem_defs_moveTo.mpr (.inr ⟨rfl, rfl⟩)⟩

theorem nodup_defs :
  ((moveTo f l.preheader id position).blocks.flatMap Block.defs).Nodup
  := by
  obtain ⟨-, hnodup, -⟩ := Function.isSsa_iff.mp h.ssa
  rw [nodup_defs_iff_blocks] at hnodup ⊢
  constructor
  · intro d
    by_cases hpreheader : d = l.preheader
    · subst hpreheader
      have hv : v ∉ (f.block l.preheader).defs := fun hv =>
        h.ne_preheader (hnodup.2 _ _ v h.mem_defs hv)
      rw [Block.defs, h.instrs_preheader, h.sameShape.blockParams, List.filterMap_append,
        ← List.append_assoc]
      refine List.nodup_append.mpr ⟨hnodup.1 _, by simp [h.defines], ?_⟩
      rintro w hw u hu rfl
      obtain rfl : w = v := by simpa [h.defines] using hu
      exact hv hw
    by_cases hid : d = id
    · subst hid
      rw [Block.defs, h.instrs_self, h.sameShape.blockParams]
      refine (hnodup.1 d).sublist ((List.Sublist.refl _).append ?_)
      exact (List.eraseIdx_sublist _ _).filterMap _
    · rw [h.block_of_ne hpreheader hid]
      exact hnodup.1 d
  · intro d e w hd he
    rcases h.mem_defs_moveTo.mp hd with ⟨hne, hd⟩ | ⟨rfl, rfl⟩
    · rcases h.mem_defs_moveTo.mp he with ⟨-, he⟩ | ⟨rfl, -⟩
      · exact hnodup.2 d e w hd he
      · exact absurd rfl hne
    · rcases h.mem_defs_moveTo.mp he with ⟨hne, -⟩ | ⟨-, rfl⟩
      · exact absurd rfl hne
      · rfl

theorem isSsa :
  (moveTo f l.preheader id position).IsSsa
  := by
  refine h.sameShape.isSsa_of_nodup h.ssa h.nodup_defs fun d hd => ?_
  rw [h.sameShape.terminator]
  have hold := (h.ssa.scoped hd).mono fun w => h.isKnown hd
  by_cases hpreheader : d = l.preheader
  · subst hpreheader
    rw [h.instrs_preheader, scoped_append]
    rw [← List.append_nil (f.block l.preheader).instrs, scoped_append] at hold
    refine ⟨hold.1, fun u hu => ?_, fun w hw => .inl (hold.2 w hw)⟩
    have hdefined := h.ssa.isDefinedAt_of_mem_uses h.reached (h.ssa.getElem?_block h.reached)
      h.getElem?_instrs hu
    have hbefore := h.loop.isDefinedAt_preheader h.entry h.ssa h.mem h.reached hdefined (h.reads u hu)
    rcases (isDefinedAt_iff (h.ssa.getElem?_block hd)).mp hbefore with hknown | ⟨k, -, i, hi, hdef⟩
    · exact .inl (h.isKnown hd hknown)
    · exact .inr ⟨i, List.mem_of_getElem? hi, hdef⟩
  by_cases hid : d = id
  · subst hid
    rw [h.instrs_self, List.eraseIdx_eq_take_drop_succ, scoped_append]
    rw [h.instrs_eq, scoped_append] at hold
    refine ⟨hold.1, hold.2.2.mono ?_⟩
    rintro w (hw | hdef)
    · exact hw
    · rw [h.defines] at hdef
      obtain rfl := Option.some.inj hdef
      exact .inl h.isKnown_self
  · rw [h.block_of_ne hpreheader hid]
    exact hold

/-- A function stays well-formed if an instruction is moved in front of a loop. -/
theorem verify (hf : f.verify = .ok ()) :
  (moveTo f l.preheader id position).verify = .ok ()
  := by
  have hextends : f.Extends (moveTo f l.preheader id position) := by
    constructor
    · simp only [moveTo, h.found, Function.modifyBlock]
    · simp only [moveTo, h.found, Function.modifyBlock, List.prefix_rfl]
  refine Function.verify_of_sameShape hf h.isSsa h.sameShape hextends fun d i hi => ?_
  by_cases hpreheader : d = l.preheader
  · subst hpreheader
    rw [h.instrs_preheader] at hi
    rcases List.mem_append.mp hi with hi | hi
    · exact .inl hi
    · obtain rfl := List.mem_singleton.mp hi
      have hblock := h.ssa.getElem?_block h.reached
      have hmem := List.mem_of_getElem? h.getElem?_instrs
      refine .inr ⟨Verify.keeps_instr hextends _ () (Verify.instr_eq_ok hf hblock hmem), fun w hw => ?_⟩
      exact (Verify.lt_of_def? hf hblock hmem hw).trans_le hextends.varTypes.length_le
  by_cases hid : d = id
  · subst hid
    rw [h.instrs_self] at hi
    exact .inl ((List.eraseIdx_sublist _ _).subset hi)
  · rw [h.block_of_ne hpreheader hid] at hi
    exact .inl hi

end Move

/-! ## Runs -/

/-- What an instruction without effects computes depends on the variables and on the slot that it reads. -/
theorem act_of_isPure_congr {W : World} {calls : Caller} {type : VarId → ValueType}
    {vars vars' : VarId → Val} {store store' : Store} {i : Instr} {x : Val} (hpure : i.isPure = true)
    (hvars : ∀ u ∈ i.uses, vars u = vars' u)
    (hslots : ∀ slot, i.readSlot? = some slot → store.slots slot = store'.slots slot)
    (h : i.act W calls type vars store = .ok (x, store)) :
  i.act W calls type vars' store' = .ok (x, store')
  := by
  rw [Instr.act_congr hvars] at h
  cases i with
  | set dst value =>
    simp only [Instr.act] at h ⊢
    split at h
    · cases h
      rfl
    · cases h
  | binaryLanes dst op lhs rhs =>
    simp only [Instr.act] at h ⊢
    split at h
    · cases h
    · next htrap =>
      cases h
      rw [if_neg htrap]
  | load dst slot | loadElement dst slot index | loadLanes dst slot start =>
    simp only [Instr.act, hslots slot rfl] at h ⊢
    cases h
    rfl
  | loadGlobal | makeArray | makeTuple | extract =>
    cases h
    rfl
  | call | store | storeElement | boundsCheck | alloc | free | release | storeLanes => cases hpure

/-- The value of a variable is what an instruction would compute now. -/
def Current (W : World) (type : VarId → ValueType) (i : Instr) (v : VarId) (s : State) : Prop :=
  i.act W W.caller type s.vars s.store = .ok (s.vars v, s.store)

/--
What relates the states before and after a move, at a position of a block: only the variable that is
defined earlier may differ, and only where it had not been defined before.
-/
structure Between (f : Function) (W : World) (l : LoopInfo) (i : Instr) (v : VarId) (d : BlockId) (j : Nat)
    (s t : State) : Prop where
  store : s.store = t.store
  vars : ∀ w, w ≠ v → s.vars w = t.vars w
  known : IsDefinedAt f d j v → s.vars v = t.vars v
  current : d ∈ l.blocks → Current W f.varType i v t

namespace Move

variable {W : World} {d : BlockId} {j : Nat} {s t : State}

theorem not_mem_uses (h : Move f l id position line v) :
  v ∉ line.instr.uses
  := fun hv => h.reads v hv id h.mem h.mem_defs

theorem setVar_of_ne (h : Move f l id position line v) {vars : VarId → Val} {x : Val} {w : VarId}
    (hw : w ≠ v) :
  setVar vars line.instr.def? x w = vars w
  := by
  refine Flow.setVar_of_ne fun heq => hw ?_
  rw [h.defines] at heq
  exact (Option.some.inj heq).symm

/-- Where a variable is read, it does not differ. -/
theorem vars_eq (hbetween : Between f W l line.instr v d j s t) {w : VarId}
    (hw : IsDefinedAt f d j w) :
  s.vars w = t.vars w
  := by
  by_cases heq : w = v
  · subst heq
    exact hbetween.known hw
  · exact hbetween.vars w heq

/-- What is computed before the loop stays the same as long as control is in the loop. -/
theorem current_of_loop (h : Move f l id position line v) (hcurrent : Current W f.varType line.instr v s)
    (hvars : ∀ w, (∀ x ∈ l.blocks, w ∉ (f.block x).defs) ∨ w = v → s.vars w = t.vars w)
    (hslots : ∀ slot, line.instr.readSlot? = some slot → s.store.slots slot = t.store.slots slot) :
  Current W f.varType line.instr v t
  := by
  unfold Current at hcurrent ⊢
  rw [← hvars v (.inr rfl)]
  exact act_of_isPure_congr h.isPure (fun u hu => hvars u (.inl (h.reads u hu))) hslots hcurrent

/-- An instruction that stays where it is. -/
theorem between_instr (h : Move f l id position line v) (hd : d ∈ f.reversePostorder) {i : Instr}
    (hi : (f.block d).instrs[j]? = some i) (hother : ¬(d = id ∧ j = position))
    (hbetween : Between f W l line.instr v d j s t) :
  Agree (Between f W l line.instr v d (j + 1)) (i.run W W.caller f.varType s)
    (i.run W W.caller f.varType t)
  := by
  have hb := h.ssa.getElem?_block hd
  have hdef : i.def? ≠ some v := by
    intro hdef
    have hsite : IsSite f v ⟨d, some j⟩ := ⟨_, hb, i, hi, hdef⟩
    have heq := h.ssa.unique hsite h.isSite
    simp only [Site.mk.injEq, Option.some.injEq] at heq
    exact hother heq
  have hact : i.act W W.caller f.varType s.vars s.store = i.act W W.caller f.varType t.vars t.store := by
    rw [hbetween.store]
    exact Instr.act_congr fun u hu => vars_eq hbetween (h.ssa.isDefinedAt_of_mem_uses hd hb hi hu)
  unfold Instr.run
  rw [hact]
  cases hresult : i.act W W.caller f.varType t.vars t.store with
  | error stop => rfl
  | ok result =>
    obtain ⟨x, after⟩ := result
    refine ⟨_, rfl, rfl, fun w hw => ?_, fun hknown => ?_, fun hloop => ?_⟩
    · simp only [setVar]
      split
      · rfl
      · exact hbetween.vars w hw
    · simp only [setVar, if_neg hdef]
      refine hbetween.known (hknown.of_succ hb fun i' hi' => ?_)
      rw [hi] at hi'
      obtain rfl := Option.some.inj hi'
      exact hdef
    · refine h.current_of_loop (hbetween.current hloop) (fun w hw => ?_) fun slot hslot => ?_
      · refine (Flow.setVar_of_ne fun heq => ?_).symm
        rcases hw with hw | rfl
        · refine hw d hloop (List.mem_append_right _ (List.mem_filterMap.mpr ⟨i, ?_, heq⟩))
          exact List.mem_of_getElem? hi
        · exact hdef heq
      · exact (Instr.slots_of_act hresult (h.slots slot hslot d hloop i (List.mem_of_getElem? hi))).symm

/-- The instruction that is moved gives the variable the value that it has after the move. -/
theorem between_moved (h : Move f l id position line v)
    (hbetween : Between f W l line.instr v id position s t) :
  ∃ s', line.instr.run W W.caller f.varType s = .ok s'
    ∧ Between f W l line.instr v id (position + 1) s' t
  := by
  have hcurrent := hbetween.current h.mem
  have hact : line.instr.act W W.caller f.varType s.vars s.store = .ok (t.vars v, s.store) := by
    refine act_of_isPure_congr h.isPure (fun u hu => ?_) (fun slot _ => by rw [hbetween.store]) hcurrent
    exact (hbetween.vars u fun heq => h.not_mem_uses (heq ▸ hu)).symm
  refine ⟨_, Instr.run_eq_ok.mpr ⟨_, _, hact, rfl⟩, hbetween.store, fun w hw => ?_, fun _ => ?_,
    fun _ => hcurrent⟩
  · exact (h.setVar_of_ne hw).trans (hbetween.vars w hw)
  · simp [setVar, h.defines]

/-- The instructions of a block, without the one that is moved. -/
theorem eraseIdx_eq_flatMap {α : Type} (items : List α) (position k : Nat) :
  items.eraseIdx position
    = (items.zipIdx k).flatMap fun x => if x.2 = k + position then [] else [x.1]
  := by
  induction items generalizing position k with
  | nil => rfl
  | cons item items ih =>
    rw [List.zipIdx_cons, List.flatMap_cons]
    cases position with
    | zero =>
      have hrest : (items.zipIdx (k + 1)).flatMap (fun x => if x.2 = k + 0 then [] else [x.1]) = items := by
        rw [List.flatMap_congr (g := fun x => [x.1]), ← List.map_eq_flatMap, List.zipIdx_map_fst]
        intro x hx
        have hle := (List.mem_zipIdx hx).1
        rw [if_neg (by omega)]
      rw [hrest]
      simp
    | succ position =>
      rw [List.eraseIdx_cons_succ, ih position (k + 1), if_neg (by omega),
        show k + 1 + position = k + (position + 1) by omega]
      rfl

/-- The body of a block, up to where the moved instruction is added in the preheader. -/
theorem between_body (h : Move f l id position line v) (hd : d ∈ f.reversePostorder)
    (hbetween : Between f W l line.instr v d 0 s t) :
  Agree (Between f W l line.instr v d (f.block d).instrs.length)
    (runAll W W.caller f.varType (f.block d).instrs s)
    (runAll W W.caller f.varType
      (if d = id then (f.block d).instrs.eraseIdx position else (f.block d).instrs) t)
  := by
  have hnew : (if d = id then (f.block d).instrs.eraseIdx position else (f.block d).instrs)
      = (f.block d).instrs.zipIdx.flatMap fun x =>
        if d = id ∧ x.2 = position then [] else [x.1] := by
    split
    · next heq => simp only [eraseIdx_eq_flatMap _ position 0, Nat.zero_add, heq, true_and]
    · next hne =>
      simp only [hne, false_and, if_false]
      rw [← List.map_eq_flatMap, List.zipIdx_map_fst]
  rw [hnew]
  refine agree_runAll_body (fun j i hi s t hst => ?_) hbetween
  by_cases hmoved : d = id ∧ j = position
  · obtain ⟨rfl, rfl⟩ := hmoved
    obtain rfl := Option.some.inj (h.getElem?_instrs.symm.trans hi)
    obtain ⟨s', hrun, hs'⟩ := h.between_moved hst
    simp only [and_self, if_true, runAll_nil, hrun]
    exact ⟨t, rfl, hs'⟩
  · simp only [hmoved, if_false, runAll_singleton]
    exact h.between_instr hd hi hmoved hst

/-- What relates the states at the end of a block: in the preheader the variable has been computed. -/
structure AtEnd (f : Function) (W : World) (l : LoopInfo) (i : Instr) (v : VarId) (d : BlockId)
    (s t : State) : Prop where
  between : Between f W l i v d (f.block d).body.length s t
  current : d = l.preheader → Current W f.varType i v t
  reached : d ∈ f.reversePostorder

theorem atEnd (h : Move f l id position line v) (hd : d ∈ f.reversePostorder)
    (hbetween : Between f W l line.instr v d 0 s t) :
  Agree (AtEnd f W l line.instr v d) (runAll W W.caller f.varType (f.block d).instrs s)
    (runAll W W.caller f.varType ((moveTo f l.preheader id position).block d).instrs t)
  := by
  have hbody := h.between_body hd hbetween
  rw [Block.length_instrs] at hbody
  by_cases hpreheader : d = l.preheader
  · subst hpreheader
    rw [if_neg h.ne_preheader.symm] at hbody
    rw [h.instrs_preheader, runAll_append]
    rw [show runAll W W.caller f.varType (f.block l.preheader).instrs s
      = runAll W W.caller f.varType (f.block l.preheader).instrs s >>= .ok by
        cases runAll W W.caller f.varType (f.block l.preheader).instrs s <;> rfl]
    refine hbody.bind fun s' t' hst => ?_
    · obtain ⟨x, hact⟩ := Instr.act_of_isPure h.isPure W W.caller f.varType t'.vars t'.store
      rw [runAll_singleton, Instr.run_eq_ok.mpr ⟨x, t'.store, hact, rfl⟩]
      refine ⟨_, rfl, ⟨hst.store, fun w hw => ?_, fun hknown => ?_, fun hloop => ?_⟩, fun _ => ?_, hd⟩
      · exact (hst.vars w hw).trans (h.setVar_of_ne hw).symm
      · -- The loop has not defined the variable before control is in the preheader.
        obtain ⟨site, hsite, ⟨hblock, -⟩ | ⟨-, hdominates⟩⟩ := hknown
        · obtain rfl := h.ssa.unique hsite h.isSite
          exact absurd hblock h.ne_preheader
        · obtain rfl := h.ssa.unique hsite h.isSite
          rw [h.loop.not_dominates_preheader h.entry h.mem h.reached] at hdominates
          cases hdominates
      · exact absurd hloop h.loop.outside
      · unfold Current
        simp only [h.defines]
        rw [show setVar t'.vars (some v) x v = x by simp [setVar]]
        refine act_of_isPure_congr h.isPure (fun u hu => ?_) (fun _ _ => rfl) hact
        refine (Flow.setVar_of_ne ?_).symm
        rintro ⟨⟩
        exact h.not_mem_uses hu
  · have hinstrs : ((moveTo f l.preheader id position).block d).instrs
        = if d = id then (f.block d).instrs.eraseIdx position else (f.block d).instrs := by
      split
      · next heq =>
        subst heq
        exact h.instrs_self
      · next hne => rw [h.block_of_ne hpreheader hne]
    rw [hinstrs]
    exact hbody.mono fun s' t' hst => ⟨hst, fun heq => absurd heq hpreheader, hd⟩

/-- Control goes on to the same block, and the states are related there. -/
theorem between_terminator (h : Move f l id position line v) (hend : AtEnd f W l line.instr v d s t) :
  Agree (fun p q => (p.1 = q.1 ∧ Between f W l line.instr v p.1 0 p.2 q.2) ∧ p.1 ∈ f.reversePostorder)
    ((f.block d).terminator.run f s)
    ((f.block d).terminator.run (moveTo f l.preheader id position) t)
  := by
  have hd := hend.reached
  have hb := h.ssa.getElem?_block hd
  have huses : ∀ w ∈ (f.block d).terminator.uses, s.vars w = t.vars w := fun w hw =>
    vars_eq hend.between (h.ssa.isDefinedAt_of_mem_terminator hd hb hw)
  -- The variable is not a parameter, so that it has been defined at the end of the block.
  have hknown : ∀ next ∈ f.successors d, IsDefinedAt f next 0 v → s.vars v = t.vars v := by
    intro next hnext hv
    refine hend.between.known ((hv.of_successor hd hnext hb).resolve_left fun hparam => ?_)
    have hlt := h.ssa.lt_of_mem_successors hnext
    have hsite : IsSite f v ⟨next, none⟩ := ⟨f.block next, by simp [Function.block, hlt], hparam⟩
    cases h.ssa.unique hsite h.isSite
  have hcurrent : ∀ next ∈ f.successors d, next ∈ l.blocks → Current W f.varType line.instr v t := by
    intro next hnext hloop
    by_cases hin : d ∈ l.blocks
    · exact hend.between.current hin
    · exact hend.current (h.loop.edge d next hin hloop hnext).1
  refine Agree.and (P := fun p => p.1 ∈ f.reversePostorder) ?_ fun p hp =>
    Function.mem_reversePostorder_of_run hd hp
  have hsuccessors : f.successors d = (f.block d).terminator.successors := rfl
  cases hterminator : (f.block d).terminator with
  | unreachable =>
    simp only [Terminator.run, hend.between.store]
    rfl
  | ret value =>
    have hvalue : value.map s.vars = value.map t.vars := by
      cases value with
      | none => rfl
      | some w => exact congrArg some (huses w (by simp [hterminator, Terminator.uses]))
    simp only [Terminator.run, hend.between.store, hvalue]
    rfl
  | branch test thenBlock elseBlock =>
    simp only [Terminator.run, huses test (by simp [hterminator, Terminator.uses])]
    have hnext : (if (t.vars test).isTrue then thenBlock else elseBlock) ∈ f.successors d := by
      rw [hsuccessors, hterminator]
      split <;> simp [Terminator.successors]
    exact ⟨_, rfl, rfl, hend.between.store, hend.between.vars, hknown _ hnext, hcurrent _ hnext⟩
  | jump target args =>
    have hnext : target ∈ f.successors d := by simp [hsuccessors, hterminator, Terminator.successors]
    have hlt := h.ssa.lt_of_mem_successors hnext
    have hparam : v ∉ (f.block target).params := by
      intro hparam
      have hsite : IsSite f v ⟨target, none⟩ := ⟨f.block target, by simp [Function.block, hlt], hparam⟩
      cases h.ssa.unique hsite h.isSite
    simp only [Terminator.run, h.sameShape.blockParams]
    refine ⟨_, rfl, rfl, hend.between.store, fun w hw => ?_, fun hv => ?_, fun hloop => ?_⟩
    · simp only [passArgs]
      cases hlookup : ((f.block target).params.zip args).lookup w with
      | none => exact hend.between.vars w hw
      | some arg =>
        have harg := (List.of_mem_zip (mem_of_lookup_eq_some hlookup)).2
        exact huses arg (by simpa [hterminator, Terminator.uses] using harg)
    · simp only
      rw [passArgs_of_not_mem hparam, passArgs_of_not_mem hparam]
      exact hknown target hnext hv
    · refine h.current_of_loop (hcurrent target hnext hloop) (fun w hw => ?_) fun _ _ => rfl
      refine (passArgs_of_not_mem fun hmem => ?_).symm
      rcases hw with hw | rfl
      · exact hw target hloop (List.mem_append_left _ hmem)
      · exact hparam hmem

/-- Both functions run through the same blocks. -/
theorem lockstep (h : Move f l id position line v) (W : World) :
  Lockstep W f (moveTo f l.preheader id position)
    (fun p q => (p.1 = q.1 ∧ Between f W l line.instr v p.1 0 p.2 q.2) ∧ p.1 ∈ f.reversePostorder)
    (AtEnd f W l line.instr v)
  where
  start args vars store := by
    refine ⟨⟨h.sameShape.entry.symm, ?_⟩, Function.IsSsa.mem_reversePostorder_entry f⟩
    simp only [Function.startPoint, h.sameShape.params]
    exact ⟨rfl, fun _ _ => rfl, fun _ => rfl, fun hloop => absurd hloop h.entry⟩
  same hpq := ⟨hpq.1.1, hpq.1.2.store⟩
  body := by
    rintro ⟨d, s⟩ ⟨_, t⟩ ⟨⟨rfl, hbetween⟩, hd⟩
    have htypes : (moveTo f l.preheader id position).varType = f.varType := by
      funext w
      simp only [Function.varType, moveTo, h.found, Function.modifyBlock]
    unfold Function.runBody
    rw [htypes]
    exact h.atEnd hd hbetween
  store hend := hend.between.store
  last := by
    intro d s t hend
    rw [h.sameShape.terminator]
    exact h.between_terminator hend

end Move

/-! ## Loops -/

/-- A function is a version of another one with some instructions moved. -/
structure Moved (f g : Function) : Prop where
  sameShape : SameShape f g
  verify : f.verify = .ok () → g.verify = .ok ()
  sameBehaviour : ∀ W, SameBehaviour W f g

theorem Moved.refl (f : Function) :
  Moved f f
  := ⟨.refl f, id, fun W => .refl W f⟩

theorem Moved.trans {g h : Function} (hfg : Moved f g) (hgh : Moved g h) :
  Moved f h
  := ⟨hfg.sameShape.trans hgh.sameShape, hgh.verify ∘ hfg.verify,
    fun W => (hfg.sameBehaviour W).trans (hgh.sameBehaviour W)⟩

theorem Move.moved (h : Move f l id position line v) :
  Moved f (moveTo f l.preheader id position)
  := ⟨h.sameShape, h.verify, fun W => (h.lockstep W).sameBehaviour⟩

/-- Control reaches all blocks of a loop, and only through its preheader. -/
structure IsEntered (f : Function) (l : LoopInfo) : Prop where
  loop : l.IsWellFormed f
  entry : f.entry ∉ l.blocks
  reached : ∀ d ∈ l.blocks, d ∈ f.reversePostorder

theorem IsEntered.of_sameShape {g : Function} (h : IsEntered f l) (hfg : SameShape f g) :
  IsEntered g l
  where
  loop := hfg.isWellFormed h.loop
  entry := hfg.entry ▸ h.entry
  reached d hd := hfg.mem_reversePostorder.mpr (h.reached d hd)

/-- What is remembered of a loop while instructions are moved: all that it defines and writes. -/
structure Covers (f : Function) (l : LoopInfo) (defined : List VarId) (written : List SlotId) : Prop where
  defs : ∀ d ∈ l.blocks, ∀ w ∈ (f.block d).defs, w ∈ defined
  slots : ∀ d ∈ l.blocks, ∀ i ∈ (f.block d).instrs, ∀ slot, i.writtenSlot? = some slot → slot ∈ written

theorem covers_loop (f : Function) (l : LoopInfo) :
  Covers f l (definedIn f l.blocks) (writtenIn f l.blocks)
  where
  defs d hd _ hw := List.mem_flatMap.mpr ⟨d, hd, hw⟩
  slots d hd i hi _ hslot := List.mem_flatMap.mpr ⟨d, hd, List.mem_filterMap.mpr ⟨i, hi, hslot⟩⟩

section

variable {defined : List VarId} {written : List SlotId}

theorem exists_of_firstInvariant? {blocks : List BlockId}
    (h : firstInvariant? f blocks defined written = some (id, position)) :
  id ∈ blocks ∧ ∃ line, (f.block id).body[position]? = some line
    ∧ isInvariant defined written line.instr = true
  := by
  obtain ⟨d, hd, hfound⟩ := List.exists_of_findSome?_eq_some h
  obtain ⟨j, hj, heq⟩ := Option.map_eq_some_iff.mp hfound
  obtain ⟨rfl, rfl⟩ := Prod.mk.inj heq
  obtain ⟨hlt, hinvariant, -⟩ := List.findIdx?_eq_some_iff_getElem.mp hj
  exact ⟨hd, _, List.getElem?_eq_getElem hlt, hinvariant⟩

/-- What is found to be invariant can be moved. -/
theorem IsEntered.exists_move (h : IsEntered f l) (hf : f.IsSsa) (hcovers : Covers f l defined written)
    (hfirst : firstInvariant? f l.blocks defined written = some (id, position)) :
  ∃ line v, Move f l id position line v
  := by
  obtain ⟨hmem, line, hfound, hinvariant⟩ := exists_of_firstInvariant? hfirst
  refine ⟨line, ?_⟩
  cases hinstr : line.instr with
  | set dst value =>
    rw [hinstr] at hinvariant
    simp only [isInvariant, Bool.and_eq_true, List.all_eq_true, Bool.not_eq_true', List.contains_eq_mem,
      decide_eq_false_iff_not] at hinvariant
    refine ⟨dst, hf, h.loop, h.entry, hmem, h.reached id hmem, hfound, by rw [hinstr]; rfl,
      hinstr ▸ hinvariant.1, fun u hu d hd hdef => ?_, fun slot hslot => ?_⟩
    · rw [hinstr] at hu
      exact hinvariant.2 u hu (hcovers.defs d hd u hdef)
    · rw [hinstr] at hslot
      cases hslot
  | load dst slot =>
    rw [hinstr] at hinvariant
    simp only [isInvariant, Bool.not_eq_true', List.contains_eq_mem, decide_eq_false_iff_not] at hinvariant
    refine ⟨dst, hf, h.loop, h.entry, hmem, h.reached id hmem, hfound, by rw [hinstr]; rfl,
      by rw [hinstr]; rfl, fun u hu => ?_, fun other hslot d hd i hi hwritten => ?_⟩
    · rw [hinstr] at hu
      exact absurd hu List.not_mem_nil
    · rw [hinstr] at hslot
      obtain rfl := Option.some.inj hslot
      exact hinvariant (hcovers.slots d hd i hi slot hwritten)
  | call | store | loadGlobal | loadElement | storeElement | boundsCheck | makeArray | makeTuple | extract
  | alloc | free | release | loadLanes | storeLanes | binaryLanes =>
    rw [hinstr] at hinvariant
    cases hinvariant

/-- The loop no longer defines the variable of an instruction that is moved. -/
theorem Covers.moveTo (h : Covers f l defined written) (hmove : Move f l id position line v) :
  Covers (moveTo f l.preheader id position) l (defined.filter (some · != some v)) written
  where
  defs d hd w hw := by
    rcases hmove.mem_defs_moveTo.mp hw with ⟨hne, hw⟩ | ⟨-, rfl⟩
    · exact List.mem_filter.mpr ⟨h.defs d hd w hw, by simpa using hne⟩
    · exact absurd hd hmove.loop.outside
  slots d hd i hi slot hslot := by
    refine h.slots d hd i ?_ slot hslot
    have hpreheader : d ≠ l.preheader := fun heq => hmove.loop.outside (heq ▸ hd)
    by_cases hid : d = id
    · subst hid
      rw [hmove.instrs_self] at hi
      exact (List.eraseIdx_sublist _ _).subset hi
    · rwa [hmove.block_of_ne hpreheader hid] at hi

theorem IsEntered.moved_fromLoop (h : IsEntered f l) (hf : f.IsSsa) (hcovers : Covers f l defined written)
    (bound : Nat) :
  Moved f (fromLoop l written bound defined f).2
  := by
  induction bound generalizing f defined with
  | zero => exact .refl f
  | succ bound ih =>
    rw [fromLoop]
    split
    · exact .refl f
    · next id position hfirst =>
      obtain ⟨line, v, hmove⟩ := h.exists_move hf hcovers hfirst
      have hcovers := hcovers.moveTo hmove
      simp only [hmove.found, Option.bind_some, hmove.defines]
      exact hmove.moved.trans (ih (h.of_sameShape hmove.sameShape) hmove.isSsa hcovers)

end

theorem IsEntered.moved_loop (h : IsEntered f l) (hf : f.IsSsa) :
  Moved f (Hoist.loop l f).2
  := h.moved_fromLoop hf (covers_loop f l) f.instrCount

theorem moved_loops {loops : List LoopInfo} (hf : f.verify = .ok ()) (h : ∀ l ∈ loops, IsEntered f l) :
  Moved f (Pass.sequence (loops.map Hoist.loop) f).2
  := by
  induction loops generalizing f with
  | nil => exact .refl f
  | cons l loops ih =>
    have hfirst := (h l (by simp)).moved_loop (Function.isSsa_of_verify hf)
    refine hfirst.trans (ih (hfirst.verify hf) fun l' hl' => ?_)
    exact (h l' (by simp [hl'])).of_sameShape hfirst.sameShape

end Hoist

/--
With its loop invariants in front of its loops a function is still well-formed, and in every world it
behaves as before, if control gets into the loops through their preheaders only. A function may not start
in a loop, as it would then get there without having been in the preheader.
-/
theorem sameBehaviour_hoistInvariants {f : Function} (hf : f.verify = .ok ())
    (hreachable : ∀ id < f.blocks.length, f.isReachable id = true)
    (hloops : ∀ l ∈ f.loops, l.IsWellFormed f ∧ f.entry ∉ l.blocks) :
  (hoistInvariants f).2.verify = .ok () ∧ ∀ W, SameBehaviour W f (hoistInvariants f).2
  := by
  have hmoved : Hoist.Moved f (hoistInvariants f).2 := by
    refine Hoist.moved_loops hf fun l hl => ⟨(hloops l hl).1, (hloops l hl).2, fun d hd => ?_⟩
    have hlt : d < f.blocks.length := Verify.lt_of_mem_loop hf hl (by simp [hd])
    simpa [Function.isReachable] using hreachable d hlt
  exact ⟨hmoved.verify hf, hmoved.sameBehaviour⟩

/-- Counts a parameter down to zero, and adds one and the same product in each round. -/
def addsProduct : Function where
  name := "add"
  params := [0]
  result := .int 64
  blocks :=
    [ ⟨[0], [⟨.store 0 0, none⟩, ⟨.store 1 0, none⟩], .jump 1 []⟩,
      ⟨[], [⟨.load 1 0, none⟩, ⟨.set 2 (.const (.int 0)), none⟩, ⟨.set 3 (.binary .gt 1 2), none⟩],
        .branch 3 2 3⟩,
      ⟨[],
        [ ⟨.set 4 (.binary .mul 0 0), none⟩, ⟨.load 5 1, none⟩, ⟨.set 6 (.binary .add 5 4), none⟩,
          ⟨.store 1 6, none⟩, ⟨.set 7 (.const (.int 1)), none⟩, ⟨.load 8 0, none⟩,
          ⟨.set 9 (.binary .sub 8 7), none⟩, ⟨.store 0 9, none⟩ ],
        .jump 1 []⟩,
      ⟨[], [⟨.load 10 1, none⟩], .ret (some 10)⟩ ]
  entry := 0
  varTypes := (List.replicate 11 (.int 64)).set 3 .bool
  slots := List.replicate 2 ⟨none, .int 64⟩
  loops := [⟨0, 1, 2, 3, [1, 2], none⟩]
  flags := .none

theorem sameBehaviour_hoistInvariants_addsProduct :
  addsProduct.verify = .ok () ∧ (∀ id < addsProduct.blocks.length, addsProduct.isReachable id = true)
    ∧ (∀ l ∈ addsProduct.loops, l.IsWellFormed addsProduct ∧ addsProduct.entry ∉ l.blocks)
    ∧ (hoistInvariants addsProduct).1 = 3 ∧ (hoistInvariants addsProduct).2.verify = .ok ()
    ∧ ∀ W, SameBehaviour W addsProduct (hoistInvariants addsProduct).2
  := ⟨by decide +kernel, by decide +kernel, by decide +kernel, by decide +kernel,
    sameBehaviour_hoistInvariants (by decide +kernel) (by decide +kernel) (by decide +kernel)⟩

/-- Starts inside of a loop, from which control gets to the preheader and back. -/
def startsInLoop : Function where
  name := "f"
  params := [0]
  result := .int 64
  blocks :=
    [ ⟨[0], [⟨.set 1 (.const (.int 5)), none⟩], .branch 0 1 2⟩,
      ⟨[], [], .jump 0 [0]⟩,
      ⟨[], [], .ret (some 1)⟩ ]
  entry := 0
  varTypes := [.bool, .int 64]
  slots := []
  loops := [⟨1, 0, 0, 2, [0], none⟩]
  flags := .none

/-- A definition is moved out of the entry block, although control may leave the loop from there. -/
theorem hoistInvariants_startsInLoop :
  startsInLoop.verify = .ok () ∧ (∀ id < startsInLoop.blocks.length, startsInLoop.isReachable id = true)
    ∧ (∀ l ∈ startsInLoop.loops, l.IsWellFormed startsInLoop)
    ∧ (hoistInvariants startsInLoop).2.verify = .error ⟨some 2, .notDominated 1⟩
  := by
  decide +kernel

end FormCompiler.Flow
