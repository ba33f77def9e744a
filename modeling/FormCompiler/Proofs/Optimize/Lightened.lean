import FormCompiler.Proofs.Optimize.Weight

/-!
# Lighter functions

Each of the rewrites of constant folding makes a function lighter by as much as it counts. Two of them
need more than the text of the function. Where copies are followed, what is read in the end is no copy
any more, since every block is reached; and a variable that a load gives to others is not a copy,
since nothing else defines it.
-/

namespace FormCompiler.Flow

open Verify (IsSite IsDefinedAt)

namespace Fold

variable {f : Function} {isRead : VarId → Bool} {into source : BlockId}
variable {i new : Instr} {dst v : VarId} {id : BlockId} {P : VarId → Prop} {known : Known}
    {exits : List (BlockId × Known)}

theorem lightens_values (f : Function) :
  values.Lightens Function.weight f
  := by
  have hfolded : (Pass.replaceInstrs (foldedInstr? f)).Lightens Function.weight f := by
    refine Pass.lightens_replaceInstrs fun i new hnew => ?_
    obtain ⟨dst, value, c, rfl, rfl, hc⟩ := exists_of_foldedInstr? hnew
    refine ⟨by simp [Instr.uses, Value.uses], fun isRead => ?_⟩
    cases value with
    | const | copy => cases hc
    | binary | unary | cast => simp [Instr.weight]
  exact ⟨hfolded.same, hfolded.lighter⟩

theorem lightens_boundsChecks (f : Function) :
  boundsChecks.Lightens Function.weight f
  := by
  have hkept := Pass.lightens_keepInstrs (f := f) (isNeeded f)
  exact ⟨hkept.same, hkept.lighter⟩

theorem lightens_unreadOnce (f : Function) :
  unreadOnce.Lightens Function.weight f
  := by
  have hkept := Pass.lightens_keepInstrs (f := f)
    fun i => !(i.isPure && i.def?.any fun dst => f.useCount dst = 0)
  exact ⟨hkept.same, hkept.lighter⟩

theorem lightens_unread (f : Function) :
  unread.Lightens Function.weight f
  := by
  have hrepeated : (unreadOnce.repeated f.instrCount).Lightens Function.weight f :=
    .repeated (P := fun _ => True) (fun _ _ => trivial) (fun g _ => lightens_unreadOnce g) _ trivial
  exact ⟨hrepeated.same, hrepeated.lighter⟩

/-! ## Branches -/

/-- Deciding branches changes the blocks one by one: a branch that is decided becomes a jump. -/
theorem exists_branches_eq (f : Function) :
  ∃ change, branches f = Pass.onBlocks change f ∧ ∀ b, change b = (0, b)
    ∨ ∃ target, decided? f.constants b.terminator = some target
      ∧ change b = (1, { b with terminator := .jump target [] })
  := by
  refine ⟨_, rfl, fun b => ?_⟩
  cases hdecided : decided? f.constants b.terminator with
  | none => exact .inl (by simp only)
  | some target => exact .inr ⟨target, rfl, by simp only⟩

theorem lightens_branches (f : Function) :
  branches.Lightens Function.weight f
  := by
  obtain ⟨change, heq, hchange⟩ := exists_branches_eq f
  have hchanged : (Pass.onBlocks change).Lightens Function.weight f := by
    refine Pass.lightens_onBlocks (fun b _ hzero => ?_) (fun b _ => ?_) fun isRead b _ => ?_
    · rcases hchange b with hb | ⟨target, -, hb⟩
      · rw [hb]
      · rw [hb] at hzero
        exact absurd hzero one_ne_zero
    · rcases hchange b with hb | ⟨target, -, hb⟩
      · rw [hb]
        exact List.Subset.refl _
      · rw [hb]
        intro v hv
        rw [Block.uses, List.mem_append] at hv ⊢
        exact hv.imp_right fun hv => by simp [Terminator.uses] at hv
    · rcases hchange b with hb | ⟨target, hdecided, hb⟩
      · rw [hb]
        exact le_rfl
      · obtain ⟨test, thenBlock, elseBlock, hbranch, -⟩ := exists_of_decided? hdecided
        simp only [hb, Block.weight, hbranch, Terminator.weight]
        simp only [Block.instrs]
        omega
  exact ⟨heq ▸ hchanged.same, heq ▸ hchanged.lighter⟩

/-! ## Copies -/

/-- The variable that an instruction sets to a copy, and what it is a copy of. -/
def copy? : Instr → Option (VarId × VarId)
  | .set dst (.copy source) => some (dst, source)
  | _ => none

theorem copy?_eq_some {source : VarId} :
  copy? i = some (dst, source) ↔ i = .set dst (.copy source)
  := by
  unfold copy?
  split
  · simp
  · next hnot =>
    simp only [reduceCtorEq, false_iff]
    exact hnot dst source

theorem copiesOf_eq (f : Function) :
  copiesOf f = f.blocks.flatMap fun b => b.instrs.filterMap copy?
  := rfl

theorem mem_copiesOf {source : VarId} :
  (dst, source) ∈ copiesOf f ↔ ∃ b ∈ f.blocks, .set dst (.copy source) ∈ b.instrs
  := by
  simp only [copiesOf_eq, List.mem_flatMap, List.mem_filterMap, copy?_eq_some, exists_eq_right]

/-- What is read in place of a variable, where that is defined, is no copy. -/
theorem lookup_follow_copiesOf (hf : f.verify = .ok ()) (hid : id ∈ f.reversePostorder) {j : Nat}
    (hv : IsDefinedAt f id j v) :
  (copiesOf f).lookup (Function.follow (copiesOf f) (copiesOf f).length v) = none
  := by
  have hssa := Function.isSsa_of_verify hf
  refine Function.lookup_follow_eq_none
    (fun u v => ∃ d k, IsSite f v ⟨d, some k⟩ ∧ IsDefinedAt f d k u) ?_ ?_
    (P := fun w => IsDefinedAt f id j w) ?_ hv
  · rintro u v w ⟨d, k, hv, hu⟩ ⟨d', k', hw, hv'⟩
    exact ⟨d', k', hw, hssa.isDefinedAt_trans hv' hv hu⟩
  · rintro v ⟨d, k, ⟨b, hb, i, hi, hdef⟩, hv⟩
    exact hssa.def?_ne hb hi hv hdef
  · intro w next hlookup hw
    refine ⟨(standsFor_copy hf hlookup).defined hid hw, ?_⟩
    obtain ⟨site, hsite⟩ := hw.exists_site
    obtain ⟨b, k, hb, hk, hget⟩ := hssa.getElem?_of_set hsite (exists_of_copiesOf hlookup)
    refine ⟨site.block, k, ⟨b, hb, _, hget, rfl⟩, ?_⟩
    have hreached := mem_reversePostorder_of_isDefinedAt hssa hid hw hsite
    exact hssa.isDefinedAt_of_mem_uses hreached hb hget (by simp [Instr.uses, Value.uses])

/-- The copies in a list of instructions that are read weigh one more than those that are not. -/
theorem sum_weight_copies (isRead isRead' : VarId → Bool) {instrs : List Instr}
    (h : ∀ dst source, .set dst (.copy source) ∈ instrs → isRead' dst = false) :
  (instrs.map (Instr.weight isRead')).sum
      + ((instrs.filterMap copy?).filter fun copy => isRead copy.1).length
    ≤ (instrs.map (Instr.weight isRead)).sum
  := by
  induction instrs with
  | nil => simp
  | cons i instrs ih =>
    have hrest := ih fun dst source hmem => h dst source (List.mem_cons_of_mem _ hmem)
    cases hcopy : copy? i with
    | some copy =>
      obtain ⟨dst, source⟩ := copy
      obtain rfl := copy?_eq_some.mp hcopy
      have hunread := h dst source (by simp)
      simp only [List.map_cons, List.sum_cons, List.filterMap_cons_some hcopy, List.filter_cons,
        Instr.weight, hunread]
      cases hread : isRead dst <;> simp only [List.length_cons, if_true, Bool.false_eq_true, if_false] <;>
        omega
    | none =>
      have hweight : i.weight isRead' = i.weight isRead := by
        unfold Instr.weight
        split <;> first | rfl | exact absurd hcopy (by simp [copy?])
      simp only [List.map_cons, List.sum_cons, List.filterMap_cons_none hcopy, hweight]
      omega

theorem lightens_copies (hf : f.verify = .ok ()) (hall : f.AllReached) :
  copies.Lightens Function.weight f
  := by
  have hssa := Function.isSsa_of_verify hf
  have hblocks : (copies f).2.blocks = f.blocks.map
      (Block.mapUses (Function.follow (copiesOf f) (copiesOf f).length)) := rfl
  have hcount : (copies f).1 = ((copiesOf f).filter fun copy => f.isRead copy.1).length := rfl
  -- copies are not read any more
  have hunread : ∀ dst source, (dst, source) ∈ copiesOf f → (copies f).2.isRead dst = false := by
    intro dst source hcopy
    refine Bool.eq_false_iff.mpr fun hread => ?_
    obtain ⟨b', hb', hv⟩ := Function.isRead_iff.mp hread
    rw [hblocks] at hb'
    obtain ⟨b, hb, rfl⟩ := List.mem_map.mp hb'
    obtain ⟨u, hu, rfl⟩ := Block.mem_uses_mapUses.mp hv
    obtain ⟨id, hid, j, hdefined⟩ := hall.isDefinedAt hssa hb hu
    simpa using List.lookup_eq_none_iff.mp (lookup_follow_copiesOf hf hid hdefined) _ hcopy
  refine .of_add_le (fun hzero => ?_) ?_
  · refine Function.replaceUses_eq_self fun b hb v hv => ?_
    cases hlookup : (copiesOf f).lookup v with
    | none => rfl
    | some source =>
      rw [hcount, List.length_eq_zero_iff, List.filter_eq_nil_iff] at hzero
      exact absurd (Function.isRead_iff.mpr ⟨b, hb, hv⟩) (hzero _ (mem_of_lookup_eq_some hlookup))
  · rw [hcount, copiesOf_eq, List.filter_flatMap, List.length_flatMap, Function.weight, Function.weightBy,
      hblocks, List.map_map]
    refine sum_map_add_le fun b hb => ?_
    have hsum := sum_weight_copies f.isRead (copies f).2.isRead fun dst source (hi : _ ∈ b.instrs) => hunread dst source (mem_copiesOf.mpr ⟨b, hb, hi⟩)
    rw [Function.comp_apply, Block.weight_mapUses, Block.weight, Block.weight]
    omega

/-! ## Stored values -/

/-- What instructions read and what loads give has a property. -/
def Provides (P : VarId → Prop) (f : Function) : Prop :=
  ∀ b ∈ f.blocks, (∀ v ∈ b.uses, P v) ∧ ∀ v slot, .load v slot ∈ b.instrs → P v

theorem forwardInstr_provides (hknown : ∀ entry ∈ known, P entry.2) (huses : ∀ v ∈ i.uses, P v)
    (hload : ∀ v slot, i = .load v slot → P v) :
  (∀ entry ∈ (forwardInstr known i).2, P entry.2)
    ∧ ∀ v ∈ ((forwardInstr known i).1.getD i).uses, P v
  := by
  cases i with
  | store slot value =>
    refine ⟨fun entry hentry => ?_, huses⟩
    rcases List.mem_cons.mp hentry with rfl | hentry
    · exact huses _ (by simp [Instr.uses])
    · exact hknown entry hentry
  | load dst slot =>
    cases hlookup : known.lookup slot with
    | none =>
      simp only [forwardInstr, hlookup, Option.getD_none]
      refine ⟨fun entry hentry => ?_, huses⟩
      rcases List.mem_cons.mp hentry with rfl | hentry
      · exact hload dst slot rfl
      · exact hknown entry hentry
    | some value =>
      simp only [forwardInstr, hlookup, Option.getD_some]
      refine ⟨hknown, fun v hv => ?_⟩
      obtain rfl : v = value := by simpa [Instr.uses, Value.uses] using hv
      exact hknown _ (mem_of_lookup_eq_some hlookup)
  | storeElement | storeLanes =>
    exact ⟨fun entry hentry => hknown entry (List.mem_of_mem_filter hentry), huses⟩
  | set | call | loadGlobal | loadElement | boundsCheck | makeArray | makeTuple | extract | alloc | free
  | release | loadLanes | binaryLanes => exact ⟨hknown, huses⟩

theorem forwardBody_cons_none {line : Line} (h : (forwardInstr known line.instr).1 = none) (lines : List Line) :
  forwardBody known (line :: lines)
    = ((forwardBody (forwardInstr known line.instr).2 lines).1,
      (forwardBody (forwardInstr known line.instr).2 lines).2.1,
      line :: (forwardBody (forwardInstr known line.instr).2 lines).2.2)
  := by simp only [forwardBody, h]

theorem forwardBody_cons_some {line : Line} (h : (forwardInstr known line.instr).1 = some new) (lines : List Line) :
  forwardBody known (line :: lines)
    = ((forwardBody (forwardInstr known line.instr).2 lines).1 + 1,
      (forwardBody (forwardInstr known line.instr).2 lines).2.1,
      { line with instr := new } :: (forwardBody (forwardInstr known line.instr).2 lines).2.2)
  := by simp only [forwardBody, h]

/-- A load that becomes a copy is lighter. -/
theorem forwardBody_weight (isRead : VarId → Bool) (known : Known) (lines : List Line) :
  (((forwardBody known lines).2.2.map (·.instr)).map (Instr.weight isRead)).sum + (forwardBody known lines).1
      ≤ ((lines.map (·.instr)).map (Instr.weight isRead)).sum
    ∧ ((forwardBody known lines).1 = 0 → (forwardBody known lines).2.2 = lines)
  := by
  induction lines generalizing known with
  | nil => exact ⟨by simp [forwardBody], fun _ => rfl⟩
  | cons line lines ih =>
    obtain ⟨hweight, hsame⟩ := ih (forwardInstr known line.instr).2
    cases hnew : (forwardInstr known line.instr).1 with
    | none =>
      simp only [forwardBody_cons_none hnew, List.map_cons, List.sum_cons]
      exact ⟨by omega, fun hzero => by rw [hsame hzero]⟩
    | some new =>
      obtain ⟨dst, slot, v, hline, rfl, -⟩ := exists_of_forwardInstr hnew
      have hlighter : (Instr.set dst (.copy v)).weight isRead + 1 ≤ line.instr.weight isRead := by
        rw [hline]
        cases hread : isRead dst <;> simp [Instr.weight, hread]
      simp only [forwardBody_cons_some hnew, List.map_cons, List.sum_cons]
      exact ⟨by omega, fun hzero => absurd hzero (by omega)⟩

theorem forwardBody_provides {lines : List Line} (hknown : ∀ entry ∈ known, P entry.2)
    (huses : ∀ line ∈ lines, ∀ v ∈ line.instr.uses, P v)
    (hload : ∀ line ∈ lines, ∀ v slot, line.instr = .load v slot → P v) :
  (∀ entry ∈ (forwardBody known lines).2.1, P entry.2)
    ∧ ∀ line ∈ (forwardBody known lines).2.2, (∀ v ∈ line.instr.uses, P v)
      ∧ ∀ v slot, line.instr = .load v slot → P v
  := by
  induction lines generalizing known with
  | nil => exact ⟨hknown, by simp [forwardBody]⟩
  | cons line lines ih =>
    obtain ⟨hnext, hfirst⟩ := forwardInstr_provides hknown (huses line (by simp)) (hload line (by simp))
    obtain ⟨hlast, hrest⟩ := ih hnext (fun l hl => huses l (by simp [hl])) fun l hl => hload l (by simp [hl])
    cases hnew : (forwardInstr known line.instr).1 with
    | none =>
      rw [hnew, Option.getD_none] at hfirst
      rw [forwardBody_cons_none hnew]
      refine ⟨hlast, fun l hl => ?_⟩
      rcases List.mem_cons.mp hl with rfl | hl
      · exact ⟨hfirst, hload l (by simp)⟩
      · exact hrest l hl
    | some new =>
      obtain ⟨dst, slot, value, -, rfl, -⟩ := exists_of_forwardInstr hnew
      rw [hnew, Option.getD_some] at hfirst
      rw [forwardBody_cons_some hnew]
      refine ⟨hlast, fun l hl => ?_⟩
      rcases List.mem_cons.mp hl with rfl | hl
      · exact ⟨hfirst, by simp⟩
      · exact hrest l hl

theorem knownAtStart_provides (hexits : ∀ entry ∈ exits, ∀ known ∈ entry.2, P known.2) (f : Function) (id : BlockId) :
  ∀ known ∈ knownAtStart f exits id, P known.2
  := by
  unfold knownAtStart
  split
  · next p _ =>
    split
    · simp
    · cases hlookup : exits.lookup p with
      | none => simp
      | some known => exact hexits _ (mem_of_lookup_eq_some hlookup)
  · simp

theorem weightBy_modifyBlock (isRead : VarId → Bool) (hid : id < f.blocks.length) (change : Block → Block) :
  (f.modifyBlock id change).weightBy isRead + (f.block id).weight isRead
    = f.weightBy isRead + (change (f.block id)).weight isRead
  := by
  have hblock : f.blocks[id]? = some (f.block id) := by
    simp [Function.block, hid]
  exact sum_map_modify (Block.weight isRead) change hblock

theorem block_mem (hid : id < f.blocks.length) :
  f.block id ∈ f.blocks
  := by simp [Function.block, hid]

theorem modifyBlock_eq_self {change : Block → Block} (h : change (f.block id) = f.block id) :
  f.modifyBlock id change = f
  := by
  have hblocks : f.blocks.modify id change = f.blocks := by
    refine List.ext_getElem? fun k => ?_
    rw [List.getElem?_modify]
    cases hget : f.blocks[k]? with
    | none => rfl
    | some b =>
      by_cases heq : id = k
      · obtain rfl : f.block id = b := by simp [Function.block, heq, hget]
        simp [h]
      · simp [heq]
  rw [Function.modifyBlock, hblocks]

/-- The first of some blocks, and then the others. -/
theorem forwardBlocks_cons (exits : List (BlockId × Known)) (id : BlockId) (ids : List BlockId)
    (f : Function) :
  ∃ body g, body = forwardBody (knownAtStart f exits id) (f.block id).body
    ∧ g = f.modifyBlock id (fun b => { b with body := body.2.2 })
    ∧ forwardBlocks exits (id :: ids) f
      = (body.1 + (forwardBlocks ((id, body.2.1) :: exits) ids g).1,
        (forwardBlocks ((id, body.2.1) :: exits) ids g).2)
  := ⟨_, _, rfl, rfl, rfl⟩

theorem forwardBlocks_lightens (isRead : VarId → Bool) (exits : List (BlockId × Known)) {ids : List BlockId}
    (hids : ∀ id ∈ ids, id < f.blocks.length) :
  (forwardBlocks exits ids f).2.weightBy isRead + (forwardBlocks exits ids f).1 ≤ f.weightBy isRead
    ∧ ((forwardBlocks exits ids f).1 = 0 → (forwardBlocks exits ids f).2 = f)
  := by
  induction ids generalizing f exits with
  | nil => exact ⟨le_rfl, fun _ => rfl⟩
  | cons id ids ih =>
    obtain ⟨body, g, hbody, hg, heq⟩ := forwardBlocks_cons exits id ids f
    have hlength : g.blocks.length = f.blocks.length := by simp [hg, Function.modifyBlock]
    obtain ⟨hweight, hsame⟩ := ih (f := g) ((id, body.2.1) :: exits)
      fun d hd => hlength ▸ hids d (by simp [hd])
    obtain ⟨hlighter, hkept⟩ := forwardBody_weight isRead (knownAtStart f exits id) (f.block id).body
    rw [← hbody] at hlighter hkept
    have hmodify : g.weightBy isRead + (f.block id).weight isRead
        = f.weightBy isRead + Block.weight isRead { f.block id with body := body.2.2 } :=
      hg ▸ weightBy_modifyBlock isRead (hids id (by simp)) _
    have hblock : Block.weight isRead { f.block id with body := body.2.2 } + body.1
        ≤ (f.block id).weight isRead := by
      simp only [Block.weight, Block.instrs]
      omega
    rw [heq]
    refine ⟨by dsimp only; omega, fun hzero => ?_⟩
    obtain ⟨hfirst, hrest⟩ : body.1 = 0 ∧ _ := Nat.add_eq_zero_iff.mp hzero
    refine (hsame hrest).trans (hg.trans (modifyBlock_eq_self ?_))
    rw [hkept hfirst]

theorem forwardBlocks_provides {ids : List BlockId} (hexits : ∀ entry ∈ exits, ∀ known ∈ entry.2, P known.2)
    (hids : ∀ id ∈ ids, id < f.blocks.length) (hf : Provides P f) :
  Provides P (forwardBlocks exits ids f).2
  := by
  induction ids generalizing f exits with
  | nil => exact hf
  | cons id ids ih =>
    obtain ⟨body, g, hbody, hg, heq⟩ := forwardBlocks_cons exits id ids f
    have hid := hids id (by simp)
    have hlength : g.blocks.length = f.blocks.length := by simp [hg, Function.modifyBlock]
    obtain ⟨huses, hload⟩ := hf (f.block id) (block_mem hid)
    have hlines : ∀ line ∈ (f.block id).body, line.instr ∈ (f.block id).instrs :=
      fun line hline => List.mem_map_of_mem hline
    obtain ⟨hlast, hbodies⟩ := forwardBody_provides (knownAtStart_provides hexits f id)
      (fun line hline v hv =>
        huses v (List.mem_append_left _ (List.mem_flatMap.mpr ⟨_, hlines line hline, hv⟩)))
      fun line hline v slot hi => hload v slot (hi ▸ hlines line hline)
    rw [← hbody] at hlast hbodies
    rw [heq]
    refine ih (f := g) (fun entry hentry => ?_) (fun d hd => hlength ▸ hids d (by simp [hd])) ?_
    · rcases List.mem_cons.mp hentry with rfl | hentry
      · exact hlast
      · exact hexits entry hentry
    · intro b hb
      obtain ⟨d, hd⟩ := List.getElem?_of_mem hb
      have hb' : b = g.block d := by simp [Function.block, hd]
      rw [hb', hg, Function.block_modifyBlock hid]
      split
      · next heq =>
        subst heq
        refine ⟨fun v hv => ?_, fun v slot hi => ?_⟩
        · rcases List.mem_append.mp hv with hv | hv
          · obtain ⟨i, hi, hv⟩ := List.mem_flatMap.mp hv
            obtain ⟨line, hline, rfl⟩ := List.mem_map.mp hi
            exact (hbodies line hline).1 v hv
          · exact huses v (List.mem_append_right _ hv)
        · obtain ⟨line, hline, hi⟩ := List.mem_map.mp hi
          exact (hbodies line hline).2 v slot hi
      · exact hf _ (block_mem (hlength ▸ (List.getElem?_eq_some_iff.mp hd).1))

/-- A variable that a load gives to others is no copy. -/
theorem weightBy_eq_weight (hf : f.IsSsa)
    (h : ∀ v, isRead v = true ↔ f.isRead v = true ∨ ∃ b ∈ f.blocks, ∃ slot, .load v slot ∈ b.instrs) :
  f.weightBy isRead = f.weight
  := by
  have hinstr : ∀ b ∈ f.blocks, ∀ i ∈ b.instrs, i.weight isRead = i.weight f.isRead := by
    intro b hb i hi
    cases hcopy : copy? i with
    | none =>
      unfold Instr.weight
      split <;> first | rfl | exact absurd hcopy (by simp [copy?])
    | some copy =>
      obtain ⟨dst, source⟩ := copy
      obtain rfl := copy?_eq_some.mp hcopy
      have heq : isRead dst = f.isRead dst := by
        refine Bool.eq_iff_iff.mpr ((h dst).trans ⟨?_, .inl⟩)
        rintro (hread | ⟨b', hb', slot, hi'⟩)
        · exact hread
        · obtain ⟨id, hid⟩ := List.getElem?_of_mem hb
          obtain ⟨id', hid'⟩ := List.getElem?_of_mem hb'
          obtain ⟨j, hj⟩ := List.getElem?_of_mem hi
          obtain ⟨j', hj'⟩ := List.getElem?_of_mem hi'
          have hsite : IsSite f dst ⟨id, some j⟩ := ⟨b, hid, _, hj, rfl⟩
          have hsite' : IsSite f dst ⟨id', some j'⟩ := ⟨b', hid', _, hj', rfl⟩
          obtain ⟨rfl, rfl⟩ : id = id' ∧ j = j' := by simpa using hf.unique hsite hsite'
          obtain rfl : b = b' := Option.some.inj (hid.symm.trans hid')
          exact absurd (hj.symm.trans hj') (by simp)
      simp only [Instr.weight, heq]
  refine congrArg List.sum (List.map_congr_left fun b hb => ?_)
  rw [Block.weight, List.map_congr_left (hinstr b hb), Block.weight]

theorem lightens_storedValues (hf : f.verify = .ok ()) :
  storedValues.Lightens Function.weight f
  := by
  classical
  have hids : ∀ id ∈ f.reversePostorder, id < f.blocks.length :=
    fun id hid => Verify.lt_of_mem_reversePostorder hf hid
  -- a variable counts as read if it may be read afterwards
  set mayRead : VarId → Bool :=
    fun v => decide (f.isRead v = true ∨ ∃ b ∈ f.blocks, ∃ slot, .load v slot ∈ b.instrs) with hmayRead
  obtain ⟨hweight, hsame⟩ := forwardBlocks_lightens mayRead [] hids
  refine .of_add_le hsame ?_
  have hprovides : Provides (fun v => mayRead v = true) (storedValues f).2 := by
    refine forwardBlocks_provides (by simp) hids fun b hb => ⟨fun v hv => ?_, fun v slot hi => ?_⟩
    · exact decide_eq_true (.inl (Function.isRead_iff.mpr ⟨b, hb, hv⟩))
    · exact decide_eq_true (.inr ⟨b, hb, slot, hi⟩)
  have hmono : (storedValues f).2.weight ≤ (storedValues f).2.weightBy mayRead := by
    refine Function.weightBy_mono (fun v hv => ?_) _
    obtain ⟨b, hb, hv⟩ := Function.isRead_iff.mp hv
    exact (hprovides b hb).1 v hv
  have heq : f.weightBy mayRead = f.weight :=
    weightBy_eq_weight (Function.isSsa_of_verify hf) fun v => decide_eq_true_iff
  rw [← heq]
  exact (Nat.add_le_add_right hmono _).trans hweight

/-- What stands for some lines makes them lighter. -/
theorem sum_weight_lines (isRead : VarId → Bool) {lines : List (Line × Option Instr)}
    (h : ∀ line ∈ lines, ∀ new, line.2 = some new → new.weight isRead + 1 ≤ line.1.instr.weight isRead) :
  (lines.map fun line => (line.2.getD line.1.instr).weight isRead).sum + (lines.filter (·.2.isSome)).length
    ≤ (lines.map fun line => line.1.instr.weight isRead).sum
  := by
  induction lines with
  | nil => simp
  | cons line lines ih =>
    obtain ⟨line, new⟩ := line
    have hrest := ih fun l hl => h l (List.mem_cons_of_mem _ hl)
    cases new with
    | none =>
      simp only [List.map_cons, List.sum_cons, List.filter_cons, Option.getD_none, Option.isSome_none,
        Bool.false_eq_true, if_false]
      omega
    | some new =>
      have hfirst := h (line, some new) (by simp) new rfl
      simp only [List.map_cons, List.sum_cons, List.filter_cons, Option.getD_some, Option.isSome_some,
        if_true, List.length_cons] at hfirst ⊢
      omega

theorem exists_of_mem_singleStored {stores : List (SlotId × Nat × Const)} {inEntry : Bool} {position : Nat}
    (h : singleStore? stores inEntry position i = some new) :
  ∃ dst slot c, i = .load dst slot ∧ new = .set dst (.const c)
  := by
  cases i with
  | load dst slot =>
    simp only [singleStore?] at h
    split at h
    · split at h
      · cases h
      · exact ⟨dst, slot, _, rfl, (Option.some.inj h).symm⟩
    · cases h
  | set | call | store | loadGlobal | loadElement | storeElement | boundsCheck | makeArray | makeTuple
  | extract | alloc | free | release | loadLanes | storeLanes | binaryLanes => cases h

theorem singleStoredBlock_lightens (stores : List (SlotId × Nat × Const)) (inEntry : Bool) (b : Block) :
  ((singleStoredBlock stores inEntry b).1 = 0 → (singleStoredBlock stores inEntry b).2 = b)
    ∧ (singleStoredBlock stores inEntry b).2.uses ⊆ b.uses
    ∧ ∀ isRead, (singleStoredBlock stores inEntry b).2.weight isRead + (singleStoredBlock stores inEntry b).1
      ≤ b.weight isRead
  := by
  obtain ⟨lines, hlines⟩ : ∃ lines, lines = b.body.zipIdx.map fun line =>
    (line.1, singleStore? stores inEntry line.2 line.1.instr) := ⟨_, rfl⟩
  have heq : singleStoredBlock stores inEntry b = ((lines.filter (·.2.isSome)).length,
      { b with body := lines.map fun line => { line.1 with instr := line.2.getD line.1.instr } }) := by
    rw [hlines]
    rfl
  have hfst : lines.map (·.1) = b.body := by
    rw [hlines, List.map_map]
    exact List.zipIdx_map_fst 0 b.body
  have hnew : ∀ line ∈ lines, ∀ new, line.2 = some new →
      ∃ dst slot c, line.1.instr = .load dst slot ∧ new = .set dst (.const c) := by
    rintro _ hmem new hsome
    rw [hlines] at hmem
    obtain ⟨⟨line, position⟩, -, rfl⟩ := List.mem_map.mp hmem
    exact exists_of_mem_singleStored hsome
  rw [heq]
  refine ⟨fun hzero => ?_, fun v hv => ?_, fun isRead => ?_⟩
  · have hnone : ∀ line ∈ lines, line.2 = none := by
      intro line hline
      have hnot := List.filter_eq_nil_iff.mp (List.length_eq_zero_iff.mp hzero) line hline
      simpa using hnot
    have hbody : lines.map (fun line => { line.1 with instr := line.2.getD line.1.instr }) = b.body := by
      rw [← hfst]
      refine List.map_congr_left fun line hline => ?_
      rw [hnone line hline]
      rfl
    exact congrArg (fun body => { b with body := body }) hbody
  · rw [Block.uses, List.mem_append] at hv ⊢
    refine hv.imp_left fun hv => ?_
    obtain ⟨i, hi, hv⟩ := List.mem_flatMap.mp hv
    obtain ⟨line, hline, rfl⟩ := List.mem_map.mp hi
    obtain ⟨⟨line, new⟩, hmem, rfl⟩ := List.mem_map.mp hline
    have hinstr : line.instr ∈ b.instrs := by
      rw [Block.instrs, ← hfst]
      exact List.mem_map_of_mem (List.mem_map_of_mem hmem)
    cases new with
    | none => exact List.mem_flatMap.mpr ⟨_, hinstr, hv⟩
    | some new =>
      obtain ⟨dst, slot, c, -, rfl⟩ := hnew _ hmem new rfl
      simp [Instr.uses, Value.uses] at hv
  · have hlighter : ∀ line ∈ lines, ∀ new, line.2 = some new →
        new.weight isRead + 1 ≤ line.1.instr.weight isRead := by
      intro line hline new hsome
      obtain ⟨dst, slot, c, hload, rfl⟩ := hnew line hline new hsome
      simp [hload, Instr.weight]
    have hsum := sum_weight_lines isRead hlighter
    have hinstrs : (b.instrs.map (Instr.weight isRead)).sum
        = (lines.map fun line => line.1.instr.weight isRead).sum := by
      rw [Block.instrs, ← hfst, List.map_map, List.map_map]
      rfl
    rw [Block.weight, Block.weight, hinstrs]
    simp only [Block.instrs, List.map_map, Function.comp_def]
    omega

/-- A load that gives a constant is lighter. -/
theorem lightens_singleStoredValues (f : Function) :
  singleStoredValues.Lightens Function.weight f
  := by
  have hblock := fun b : Block × Nat => singleStoredBlock_lightens (singleStores f) (b.2 == f.entry) b.1
  have hfst : f.blocks.zipIdx.map (·.1) = f.blocks := List.zipIdx_map_fst 0 f.blocks
  have hcount : (singleStoredValues f).1 = (f.blocks.zipIdx.map fun b =>
      (singleStoredBlock (singleStores f) (b.2 == f.entry) b.1).1).sum := by
    simp only [singleStoredValues, total_eq_sum, List.map_map]
    rfl
  have hblocks : (singleStoredValues f).2.blocks = f.blocks.zipIdx.map fun b =>
      (singleStoredBlock (singleStores f) (b.2 == f.entry) b.1).2 := by
    simp only [singleStoredValues, List.map_map]
    rfl
  refine .of_add_le (fun hzero => ?_) ?_
  · rw [hcount, List.sum_eq_zero_iff] at hzero
    have hmap : (singleStoredValues f).2.blocks = f.blocks := by
      rw [hblocks]
      refine (List.map_congr_left fun b hb => ?_).trans hfst
      exact (hblock b).1 (hzero _ (List.mem_map_of_mem hb))
    change { f with blocks := (singleStoredValues f).2.blocks } = f
    rw [hmap]
  · have hread : ∀ v, (singleStoredValues f).2.isRead v = true → f.isRead v = true := by
      intro v hv
      obtain ⟨_, hmem, hv⟩ := Function.isRead_iff.mp hv
      rw [hblocks] at hmem
      obtain ⟨b, hb, rfl⟩ := List.mem_map.mp hmem
      have hold : b.1 ∈ f.blocks.zipIdx.map (·.1) := List.mem_map_of_mem hb
      exact Function.isRead_iff.mpr ⟨b.1, hfst ▸ hold, (hblock b).2.1 hv⟩
    have hmono := Function.weightBy_mono hread (singleStoredValues f).2
    have hweight : f.weight = (f.blocks.zipIdx.map fun b => b.1.weight f.isRead).sum := by
      conv_lhs => rw [Function.weight, Function.weightBy, ← hfst, List.map_map]
      rfl
    have hby : (singleStoredValues f).2.weightBy f.isRead = (f.blocks.zipIdx.map fun b =>
        (singleStoredBlock (singleStores f) (b.2 == f.entry) b.1).2.weight f.isRead).sum := by
      rw [Function.weightBy, hblocks, List.map_map]
      rfl
    rw [hcount, hweight]
    refine (Nat.add_le_add_right hmono _).trans ?_
    rw [hby]
    exact sum_map_add_le fun b _ => (hblock b).2.2 f.isRead

/-! ## Block parameters -/

/-- The positions that are dropped and those that are kept are all positions. -/
theorem length_without_dropped (f : Function) (id : BlockId) :
  (without (dropped f id) (f.block id).params).length + (redundantParams f id).length
    = (f.block id).params.length
  := by
  by_cases hentry : id = f.entry
  · subst hentry
    rw [without_dropped_entry]
    simp [redundantParams]
  · obtain ⟨source?, hsource⟩ : ∃ source? : VarId × Nat → Option VarId, source? = fun param =>
      onlySource? (f.block id) (incoming f id) param.2 param.1 := ⟨_, rfl⟩
    have hredundant : redundantParams f id = (f.block id).params.zipIdx.filterMap fun param =>
        (source? param).map (param.2, param.1, ·) := by
      rw [redundantParams, if_neg hentry, hsource]
    have hdropped : ∀ param ∈ (f.block id).params.zipIdx,
        (!(dropped f id).contains param.2) = !(source? param).isSome := by
      rintro ⟨v, k⟩ hparam
      rw [Bool.not_inj_iff, Bool.eq_iff_iff, List.contains_iff_mem, dropped, hredundant]
      simp only [List.mem_map, List.mem_filterMap, Option.map_eq_some_iff]
      constructor
      · rintro ⟨_, ⟨⟨v', k'⟩, hparam', source, hsome, rfl⟩, rfl⟩
        rw [List.mk_mem_zipIdx_iff_getElem?] at hparam hparam'
        obtain rfl : v = v' := Option.some.inj (hparam.symm.trans hparam')
        rw [hsome]
        rfl
      · intro hsome
        obtain ⟨source, hsome⟩ := Option.isSome_iff_exists.mp hsome
        exact ⟨(k, v, source), ⟨(v, k), hparam, source, hsome, rfl⟩, rfl⟩
    rw [without, List.length_map, List.filter_congr hdropped, hredundant, List.length_filterMap_eq_countP,
      ← List.countP_eq_length_filter]
    have hall := List.length_eq_countP_add_countP (fun param => (source? param).isSome)
      (l := (f.block id).params.zipIdx)
    rw [List.length_zipIdx] at hall
    have hnot : (f.block id).params.zipIdx.countP (fun param => !(source? param).isSome)
        = (f.block id).params.zipIdx.countP fun param => decide ¬(source? param).isSome = true :=
      List.countP_congr fun param _ => by simp
    simp only [Option.isSome_map]
    omega

theorem isRead_of_lookup_replacedParams {source : VarId} (h : (replacedParams f).lookup v = some source) :
  f.isRead source = true
  := by
  obtain ⟨id, position, hmem⟩ := exists_of_lookup_replacedParams h
  obtain ⟨args, hargs, hsource⟩ := (isRedundant_of_mem hmem).passed
  obtain ⟨b, hb, hjump⟩ := mem_incoming.mp hargs
  refine Function.isRead_iff.mpr ⟨b, hb, List.mem_append_right _ ?_⟩
  rw [hjump]
  exact List.mem_of_getElem? hsource

theorem isRead_blockParams (h : (blockParams f).2.isRead v = true) :
  f.isRead v = true
  := by
  obtain ⟨b, hb, hv⟩ := Function.isRead_iff.mp h
  obtain ⟨id, hid⟩ := List.getElem?_of_mem hb
  obtain rfl : (blockParams f).2.block id = b := by simp [Function.block, hid]
  rw [block_blockParams] at hv
  obtain ⟨u, hu, rfl⟩ := Block.mem_uses_mapUses.mp hv
  have hlt : id < f.blocks.length := length_blockParams f ▸ (List.getElem?_eq_some_iff.mp hid).1
  have hread : f.isRead u = true := by
    refine Function.isRead_iff.mpr ⟨f.block id, block_mem hlt, ?_⟩
    rcases List.mem_append.mp hu with hu | hu
    · exact List.mem_append_left _ hu
    · exact List.mem_append_right _ (uses_dropArgs_subset f _ hu)
  exact Function.follow_induction (P := fun w => f.isRead w = true)
    (fun w next hlookup _ => isRead_of_lookup_replacedParams hlookup) hread _

theorem blocks_eq_map_block (f : Function) :
  f.blocks = (List.range f.blocks.length).map f.block
  := by
  refine List.ext_getElem? fun k => ?_
  by_cases hk : k < f.blocks.length
  · simp [hk, Function.block]
  · simp [hk]

theorem lightens_blockParams (f : Function) :
  blockParams.Lightens Function.weight f
  := by
  have hcount : (blockParams f).1
      = ((List.range f.blocks.length).map fun id => (redundantParams f id).length).sum := by
    simp only [blockParams, List.length_map, List.length_flatten, List.map_map]
    rfl
  refine .of_add_le (fun hzero => ?_) ?_
  · rw [hcount, List.sum_eq_zero_iff] at hzero
    have hredundant : ∀ id, redundantParams f id = [] := by
      intro id
      by_cases hid : id < f.blocks.length
      · exact List.length_eq_zero_iff.mp (hzero _ (List.mem_map_of_mem (List.mem_range.mpr hid)))
      · exact redundantParams_of_le (Nat.le_of_not_lt hid)
    have hreplaced : replacedParams f = [] := by simp [replacedParams, hredundant]
    have hkeep : ∀ id vars, without (dropped f id) vars = vars := by
      intro id vars
      simp [without, dropped, hredundant]
    have hblock : ∀ id, (blockParams f).2.block id = f.block id := by
      intro id
      have hargs : dropArgs f (f.block id).terminator = (f.block id).terminator := by
        cases hterminator : (f.block id).terminator with
        | jump target args => simp only [dropArgs, hkeep]
        | ret | branch | unreachable => rfl
      rw [block_blockParams, hargs, hkeep]
      refine Block.mapUses_eq_self fun v _ => ?_
      simp only [standsFor, hreplaced, List.length_nil, Function.follow]
    have hblocks : (blockParams f).2.blocks = f.blocks := by
      rw [blocks_eq_map_block, length_blockParams]
      conv_rhs => rw [blocks_eq_map_block]
      exact List.map_congr_left fun id _ => hblock id
    change { f with blocks := (blockParams f).2.blocks } = f
    rw [hblocks]
  · have hmono : (blockParams f).2.weight ≤ (blockParams f).2.weightBy f.isRead :=
      Function.weightBy_mono (fun v hv => isRead_blockParams hv) _
    refine (Nat.add_le_add_right hmono _).trans ?_
    rw [hcount, Function.weight, Function.weightBy, Function.weightBy, blocks_eq_map_block (blockParams f).2,
      length_blockParams, List.map_map]
    conv_rhs => rw [blocks_eq_map_block f, List.map_map]
    refine sum_map_add_le fun id _ => ?_
    have hparams := length_without_dropped f id
    have hterminator : (dropArgs f (f.block id).terminator).weight = (f.block id).terminator.weight := by
      cases (f.block id).terminator <;> rfl
    simp only [Function.comp_apply, block_blockParams, Block.weight_mapUses]
    simp only [Block.weight, hterminator, Block.instrs]
    omega

/-! ## Blocks -/

theorem isRead_join (hjoin : CanJoin f into source) (h : (join f into source).isRead v = true) :
  f.isRead v = true
  := by
  obtain ⟨b, hb, hv⟩ := Function.isRead_iff.mp h
  obtain ⟨id, hid⟩ := List.getElem?_of_mem hb
  obtain rfl : (join f into source).block id = b := by simp [Function.block, hid]
  have hread : ∀ {d}, d < f.blocks.length → v ∈ (f.block d).uses → f.isRead v = true :=
    fun hd hv => Function.isRead_iff.mpr ⟨_, block_mem hd, hv⟩
  have hlt : id < f.blocks.length := by
    rw [← hjoin.sameFrame.length]
    exact (List.getElem?_eq_some_iff.mp hid).1
  rcases eq_or_ne id into with rfl | hinto
  · rw [hjoin.block_into] at hv
    rcases List.mem_append.mp hv with hv | hv
    · simp only [Block.instrs, List.map_append, List.flatMap_append, List.mem_append] at hv
      rcases hv with hv | hv
      · exact hread hlt (List.mem_append_left _ hv)
      · exact hread hjoin.source_lt (List.mem_append_left _ hv)
    · exact hread hjoin.source_lt (List.mem_append_right _ hv)
  · rcases eq_or_ne id source with rfl | hsource
    · rw [hjoin.block_source] at hv
      cases hv
    · rw [hjoin.block_other hinto hsource] at hv
      exact hread hlt hv

/-- Joining two blocks takes away the weight of what is lost of them. -/
theorem sum_join (hjoin : CanJoin f into source) (w : Block → Nat) :
  ((join f into source).blocks.map w).sum + w (f.block into) + w (f.block source)
    = (f.blocks.map w).sum + w ((join f into source).block into) + w .empty
  := by
  have hsource := hjoin.source_lt
  have hinto := hjoin.into_lt
  have hget : f.blocks[source]? = some (f.block source) := by simp [Function.block, hsource]
  have hfirst := sum_map_modify w (fun _ => .empty) hget
  have hget' : (f.blocks.modify source fun _ => .empty)[into]? = some (f.block into) := by
    rw [List.getElem?_modify]
    simp [hjoin.ne, Function.block, hinto]
  have hsecond := sum_map_modify w (fun b => { b with
    body := b.body ++ (f.block source).body, terminator := (f.block source).terminator }) hget'
  have hblock : (join f into source).block into = { f.block into with
      body := (f.block into).body ++ (f.block source).body, terminator := (f.block source).terminator } :=
    hjoin.block_into
  rw [hblock]
  change _ + _ = _ at hsecond
  simp only [join, Function.modifyBlock]
  omega

theorem exists_of_joinFirst (hf : f.verify = .ok ()) :
  joinFirst f = (0, f) ∨ ∃ into source, CanJoin f into source ∧ joinFirst f = (1, join f into source)
  := by
  unfold joinFirst
  simp only
  split
  · next into source hfound =>
    obtain ⟨d, -, hd⟩ := List.exists_of_findSome?_eq_some hfound
    obtain ⟨target, htarget, hpair⟩ := Option.map_eq_some_iff.mp hd
    obtain ⟨rfl, rfl⟩ := Prod.mk.inj hpair
    exact .inr ⟨d, target, canJoin_of_joinable? hf htarget, rfl⟩
  · exact .inl rfl

/-- A joint uses up a jump. -/
theorem lightens_joinFirst (hf : f.verify = .ok ()) :
  joinFirst.Lightens Function.weight f
  := by
  rcases exists_of_joinFirst hf with heq | ⟨into, source, hjoin, heq⟩
  · exact ⟨fun _ => by rw [heq], fun hne => absurd (by rw [heq]) hne⟩
  · refine ⟨fun hzero => absurd (by rw [heq] at hzero; exact hzero) one_ne_zero, fun _ => ?_⟩
    rw [heq]
    have hmono : (join f into source).weight ≤ (join f into source).weightBy f.isRead :=
      Function.weightBy_mono (fun v hv => isRead_join hjoin hv) _
    refine hmono.trans_lt ?_
    have hsum := sum_join hjoin (Block.weight f.isRead)
    have hinto : (f.block into).terminator.weight = 1 := by rw [hjoin.jump]; rfl
    have hparams : (f.block source).params.length = 0 := by rw [hjoin.params]; rfl
    have hempty : Block.empty.weight f.isRead = 0 := rfl
    rw [hjoin.block_into, hempty] at hsum
    simp only [Block.weight, Block.instrs, List.map_append, List.sum_append, hinto, hparams] at hsum
    rw [Function.weight, Function.weightBy, Function.weightBy]
    omega

theorem lightens_jumpChains (hf : f.verify = .ok ()) :
  jumpChains.Lightens Function.weight f
  := by
  have hrepeated : (joinFirst.repeated f.blocks.length).Lightens Function.weight f :=
    .repeated (P := fun g => g.verify = .ok ()) (fun g hg => (isSound_joinFirst g hg).1)
      (fun g hg => lightens_joinFirst hg) _ hf
  exact ⟨hrepeated.same, hrepeated.lighter⟩

/-- Either every block is reached, and nothing is dropped; or there are blocks to drop. -/
theorem removeUnreachable_cases (f : Function) :
  f.AllReached ∧ f.removeUnreachable = (0, f)
    ∨ ¬f.AllReached ∧ f.removeUnreachable.1 ≠ 0
      ∧ f.removeUnreachable.2 = f.keepBlocks f.reversePostorder.contains
  := by
  have hall : ((List.range f.blocks.length).filter fun id => !f.reversePostorder.contains id).length = 0
      ↔ f.AllReached := by
    simp [Function.AllReached]
  unfold Function.removeUnreachable Function.compact
  simp only
  split
  · next hzero => exact .inl ⟨hall.mp hzero, rfl⟩
  · next hne => exact .inr ⟨fun h => hne (hall.mpr h), hne, rfl⟩

theorem Terminator.uses_mapTargets (t : Terminator) (rename : BlockId → BlockId) :
  (t.mapTargets rename).uses = t.uses
  := by cases t <;> rfl

theorem Terminator.weight_mapTargets (t : Terminator) (rename : BlockId → BlockId) :
  (t.mapTargets rename).weight = t.weight
  := by cases t <;> rfl

/-- Blocks that are dropped take their weight away. -/
theorem weight_removeUnreachable (f : Function) :
  f.removeUnreachable.2.weight ≤ f.weight
  := by
  rcases f.removeUnreachable_eq with heq | heq
  · rw [heq]
  · rw [heq]
    have hread : ∀ v, (f.keepBlocks f.reversePostorder.contains).isRead v = true → f.isRead v = true := by
      intro v hv
      obtain ⟨b', hb', hv⟩ := Function.isRead_iff.mp hv
      obtain ⟨k, hk⟩ := List.getElem?_of_mem hb'
      obtain ⟨b, hb, -, rfl⟩ := Function.exists_of_getElem?_keepBlocks hk
      refine Function.isRead_iff.mpr ⟨f.block b, block_mem (Function.mem_kept.mp hb).1, ?_⟩
      rw [Block.uses, Terminator.uses_mapTargets] at hv
      exact hv
    refine (Function.weightBy_mono hread _).trans ?_
    have hsublist : (f.kept f.reversePostorder.contains).Sublist (List.range f.blocks.length) :=
      List.filter_sublist
    have hkept : (f.keepBlocks f.reversePostorder.contains).weightBy f.isRead
        = ((f.kept f.reversePostorder.contains).map fun b => (f.block b).weight f.isRead).sum := by
      simp only [Function.weightBy, Function.keepBlocks, List.map_map, Function.kept]
      refine congrArg List.sum (List.map_congr_left fun b _ => ?_)
      simp only [Function.comp_apply, Block.weight, Terminator.weight_mapTargets]
      rfl
    rw [hkept, Function.weight, Function.weightBy]
    conv_rhs => rw [blocks_eq_map_block f, List.map_map]
    exact (hsublist.map _).sum_le_sum fun _ _ => Nat.zero_le _

end Fold

end FormCompiler.Flow
