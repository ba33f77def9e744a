import FormCompiler.Proofs.Flow.Rename
import FormCompiler.Proofs.Flow.Uses
import FormCompiler.Proofs.Optimize.LaneGroup

/-!
# Functions with vector instructions

What replaces a group: its instructions are dropped, and after the last of them come the vector
instructions, which define new variables. The function stays well-formed, since nothing but the
group reads the variables that are gone.
-/

namespace FormCompiler.Flow.Lanes

open Verify (IsSite IsDefinedAt Site)

/-! ## The rewritten block -/

/-- The vector instructions of a group; `n` is the first of three new variables. -/
def laneInstrs (g : Group) (n : VarId) : List Instr :=
  [ .loadLanes n g.lhs g.start, .loadLanes (n + 1) g.rhs g.start, .binaryLanes (n + 2) g.op n (n + 1),
    .storeLanes g.dest g.start (n + 2) ]

/-- An instruction at a position, unless the position is among some. -/
def unlessAt (positions : List Nat) (line : Instr × Nat) : List Instr :=
  if line.2 ∈ positions then [] else [line.1]

/-- What stands in place of an instruction after a group of a block has been replaced. -/
def replacement (f : Function) (id : BlockId) (g : Group) (d : BlockId) (line : Instr × Nat) :
    List Instr :=
  if d = id then
    unlessAt g.members line ++ if line.2 = g.last then laneInstrs g f.varTypes.length else []
  else [line.1]

theorem flatMap_insert {α β : Type} {l : List α} {k last : Nat} {keep : α × Nat → List β} {new : List β}
    (hle : k ≤ last) (hlt : last < k + l.length) :
  (l.zipIdx k).flatMap (fun x => keep x ++ if x.2 = last then new else [])
    = ((l.zipIdx k).take (last + 1 - k)).flatMap keep ++ new
      ++ ((l.zipIdx k).drop (last + 1 - k)).flatMap keep
  := by
  have hlater : ∀ (l : List α) (k : Nat), last < k →
      (l.zipIdx k).flatMap (fun x => keep x ++ if x.2 = last then new else [])
        = (l.zipIdx k).flatMap keep := by
    intro l k hk
    refine List.flatMap_congr fun x hx => ?_
    have hne : x.2 ≠ last := Nat.ne_of_gt (hk.trans_le (List.le_snd_of_mem_zipIdx hx))
    rw [if_neg hne, List.append_nil]
  induction l generalizing k with
  | nil =>
    rw [List.length_nil] at hlt
    omega
  | cons a l ih =>
    rw [List.zipIdx_cons, List.flatMap_cons]
    rcases Nat.eq_or_lt_of_le hle with rfl | hlt'
    · rw [show k + 1 - k = 1 by omega, hlater l (k + 1) (Nat.lt_succ_self k), if_pos rfl]
      simp
    · rw [if_neg (Nat.ne_of_lt hlt'), ih hlt' (by rw [List.length_cons] at hlt; omega),
        show last + 1 - k = (last + 1 - (k + 1)) + 1 by omega]
      simp

theorem map_instr_dropPositions (positions : List Nat) (lines : List (Line × Nat)) :
  (dropPositions positions lines).map (·.instr)
    = (lines.map fun x => (x.1.instr, x.2)).flatMap (unlessAt positions)
  := by
  induction lines with
  | nil => rfl
  | cons line lines ih =>
    rw [List.map_cons, List.flatMap_cons, ← ih, dropPositions, List.filter_cons, unlessAt]
    by_cases hmem : line.2 ∈ positions
    · simp [hmem, dropPositions]
    · simp [hmem, dropPositions]

section

variable {f : Function} {id d : BlockId} {b : Block} {g : Group} {width : Nat}

/-- The type of the new variables. -/
def laneVector (g : Group) (width : Nat) : ValueType := .vector g.element width

theorem varTypes_rewrite (f : Function) (id : BlockId) (g : Group) (width : Nat) :
  (rewrite f id g width).varTypes
    = f.varTypes ++ [laneVector g width, laneVector g width, laneVector g width]
  := by
  simp [rewrite, Function.freshVar, Function.modifyBlock, laneVector]

theorem block_rewrite_of_ne (hne : d ≠ id) :
  (rewrite f id g width).block d = f.block d
  := by
  simp [rewrite, Function.freshVar, Function.modifyBlock, Function.block, hne.symm]

theorem instrs_rewrite_self (hb : f.blocks[id]? = some b) :
  ((rewrite f id g width).block id).instrs
    = (b.instrs.zipIdx.take (g.last + 1)).flatMap (unlessAt g.members)
      ++ laneInstrs g f.varTypes.length
      ++ (b.instrs.zipIdx.drop (g.last + 1)).flatMap (unlessAt g.members)
  := by
  have hnumbered : b.instrs.zipIdx = b.body.zipIdx.map fun x => (x.1.instr, x.2) := by
    rw [Block.instrs, List.zipIdx_map]
    rfl
  rw [hnumbered, ← List.map_take, ← List.map_drop, ← map_instr_dropPositions,
    ← map_instr_dropPositions]
  simp [rewrite, Function.freshVar, Function.modifyBlock, Function.block, hb, Block.instrs,
    laneInstrs]

theorem sameShape_rewrite (f : Function) (id : BlockId) (g : Group) (width : Nat) :
  SameShape f (rewrite f id g width)
  where
  entry := rfl
  params := rfl
  result := rfl
  loops := rfl
  length := by simp [rewrite, Function.freshVar, Function.modifyBlock]
  blockParams d := by
    simp only [rewrite, Function.freshVar, Function.modifyBlock, Function.block,
      List.getD_eq_getElem?_getD, List.getElem?_modify]
    cases f.blocks[d]? with
    | none => simp
    | some b => by_cases hd : id = d <;> simp [hd]
  terminator d := by
    simp only [rewrite, Function.freshVar, Function.modifyBlock, Function.block,
      List.getD_eq_getElem?_getD, List.getElem?_modify]
    cases f.blocks[d]? with
    | none => simp
    | some b => by_cases hd : id = d <;> simp [hd]

theorem extends_rewrite (f : Function) (id : BlockId) (g : Group) (width : Nat) :
  f.Extends (rewrite f id g width)
  := ⟨rfl, by rw [varTypes_rewrite]; exact List.prefix_append _ _⟩

theorem instrs_rewrite (hb : f.blocks[id]? = some b) (hlast : g.last < b.instrs.length) (d : BlockId) :
  ((rewrite f id g width).block d).instrs
    = (f.block d).instrs.zipIdx.flatMap (replacement f id g d)
  := by
  by_cases hd : d = id
  · subst hd
    have hblock : f.block d = b := by simp [Function.block, hb]
    rw [instrs_rewrite_self hb, hblock, show replacement f d g d = _ from funext fun _ => if_pos rfl]
    exact (flatMap_insert (Nat.zero_le _) (by omega)).symm
  · rw [block_rewrite_of_ne hd, show replacement f id g d = _ from funext fun _ => if_neg hd,
      ← List.map_eq_flatMap, List.zipIdx_map_fst]

/-! ## Hidden variables -/

variable {constants : List (VarId × Const)} {chain : Nat → Chain} {v : VarId}

/-- The variables of a group, and those that are new. -/
def IsHidden (f : Function) (width : Nat) (chain : Nat → Chain) (v : VarId) : Prop :=
  f.varTypes.length ≤ v
    ∨ ∃ k < width, v = (chain k).value ∨ v = (chain k).lhs ∨ v = (chain k).rhs

section

variable (hg : IsGroup f b constants width g chain)

include hg

/-- A variable of a group is read by an instruction of the group and by nothing else. -/
theorem IsGroup.only_use (hb : f.blocks[id]? = some b) {k : Nat} (hk : k < width)
    (hv : v = (chain k).value ∨ v = (chain k).lhs ∨ v = (chain k).rhs) {b' : Block} (hb' : f.blocks[d]? = some b') :
  (∀ (p : Nat) (i : Instr), b'.instrs[p]? = some i → v ∈ i.uses → d = id ∧ p ∈ g.members)
    ∧ v ∉ b'.terminator.uses
  := by
  obtain ⟨⟨index, hstore, -⟩, honce, hoperation, ⟨honceLeft, -⟩, ⟨honceRight, -⟩⟩ := hg.chains k hk
  have hread : ∃ p ∈ g.members, ∃ i, b.instrs[p]? = some i ∧ v ∈ i.uses ∧ f.useCount v = 1 := by
    rcases hv with rfl | rfl | rfl
    · refine ⟨_, (hg.members _).mpr ⟨k, hk, ?_⟩, _, hstore, ?_, honce⟩
      · simp [Chain.positions]
      · simp [Instr.uses]
    · refine ⟨_, (hg.members _).mpr ⟨k, hk, ?_⟩, _, hoperation, ?_, honceLeft⟩
      · simp [Chain.positions]
      · simp [Instr.uses, Value.uses]
    · refine ⟨_, (hg.members _).mpr ⟨k, hk, ?_⟩, _, hoperation, ?_, honceRight⟩
      · simp [Chain.positions]
      · simp [Instr.uses, Value.uses]
  obtain ⟨p, hp, i, hi, huse, hcount⟩ := hread
  obtain ⟨honly, hlast⟩ := only_use_of_useCount_eq_one hcount hb hi huse hb'
  refine ⟨fun p' i' hi' hv' => ?_, hlast⟩
  obtain ⟨rfl, rfl⟩ := honly p' i' hi' hv'
  exact ⟨rfl, hp⟩

/-- What is left reads no hidden variable. -/
theorem IsGroup.not_isHidden_of_mem_uses (hf : f.verify = .ok ()) (hb : f.blocks[id]? = some b)
    (hd : d ∈ f.reversePostorder) {p : Nat} {i : Instr} (hi : (f.block d).instrs[p]? = some i)
    (hp : d = id → p ∉ g.members) (hv : v ∈ i.uses) :
  ¬IsHidden f width chain v
  := by
  have hssa := Function.isSsa_of_verify hf
  have hbd := hssa.getElem?_block hd
  rintro (hnew | ⟨k, hk, hgroup⟩)
  · have hdefined := hssa.isDefinedAt_of_mem_uses hd hbd hi hv
    exact absurd (hdefined.lt hf) (Nat.not_lt_of_le hnew)
  · obtain ⟨hid, hmember⟩ := (hg.only_use hb hk hgroup hbd).1 p i hi hv
    exact hp hid hmember

theorem IsGroup.not_isHidden_of_mem_terminator (hf : f.verify = .ok ()) (hb : f.blocks[id]? = some b)
    (hd : d ∈ f.reversePostorder) (hv : v ∈ (f.block d).terminator.uses) :
  ¬IsHidden f width chain v
  := by
  have hssa := Function.isSsa_of_verify hf
  have hbd := hssa.getElem?_block hd
  rintro (hnew | ⟨k, hk, hgroup⟩)
  · have hdefined := hssa.isDefinedAt_of_mem_terminator hd hbd hv
    exact absurd (hdefined.lt hf) (Nat.not_lt_of_le hnew)
  · exact (hg.only_use hb hk hgroup hbd).2 hv

/-- What the instructions of a group define is hidden. -/
theorem IsGroup.isHidden_of_def? {p : Nat} {i : Instr} (hi : b.instrs[p]? = some i) (hp : p ∈ g.members)
    (hdef : i.def? = some v) :
  IsHidden f width chain v
  := by
  obtain ⟨k, hk, hpositions⟩ := (hg.members p).mp hp
  obtain ⟨⟨index, hstore, -⟩, -, hoperation, ⟨-, leftIndex, hleft, -⟩, ⟨-, rightIndex, hright, -⟩⟩ :=
    hg.chains k hk
  simp only [Chain.positions, List.mem_cons, List.not_mem_nil, or_false] at hpositions
  rcases hpositions with rfl | rfl | rfl | rfl
  · obtain rfl := Option.some.inj (hi.symm.trans hstore)
    cases hdef
  · obtain rfl := Option.some.inj (hi.symm.trans hoperation)
    exact .inr ⟨k, hk, .inl (Option.some.inj hdef).symm⟩
  · obtain rfl := Option.some.inj (hi.symm.trans hleft)
    exact .inr ⟨k, hk, .inr (.inl (Option.some.inj hdef).symm)⟩
  · obtain rfl := Option.some.inj (hi.symm.trans hright)
    exact .inr ⟨k, hk, .inr (.inr (Option.some.inj hdef).symm)⟩

theorem IsGroup.member_lt {p : Nat} (hp : p ∈ g.members) :
  p < b.instrs.length
  := by
  obtain ⟨k, hk, hpositions⟩ := (hg.members p).mp hp
  obtain ⟨⟨_, hstore, -⟩, -, hoperation, ⟨-, _, hleft, -⟩, ⟨-, _, hright, -⟩⟩ := hg.chains k hk
  simp only [Chain.positions, List.mem_cons, List.not_mem_nil, or_false] at hpositions
  rcases hpositions with rfl | rfl | rfl | rfl
  · exact (List.getElem?_eq_some_iff.mp hstore).1
  · exact (List.getElem?_eq_some_iff.mp hoperation).1
  · exact (List.getElem?_eq_some_iff.mp hleft).1
  · exact (List.getElem?_eq_some_iff.mp hright).1

end

theorem foldl_max_lt {l : List Nat} {a n : Nat} (ha : a < n) (hl : ∀ x ∈ l, x < n) :
  l.foldl max a < n
  := by
  induction l generalizing a with
  | nil => exact ha
  | cons x l ih => exact ih (max_lt ha (hl x (by simp))) fun y hy => hl y (by simp [hy])

theorem IsGroup.last_lt (hg : IsGroup f b constants width g chain) (hwidth : 0 < width) :
  g.last < b.instrs.length
  := by
  rw [hg.last]
  refine foldl_max_lt (hg.member_lt ((hg.members _).mpr ⟨width - 1, by omega, ?_⟩)) fun _ => hg.member_lt
  simp [Chain.positions]

/-! ## Well-formed functions -/

theorem unlessAt_sublist (positions : List Nat) (lines : List (Instr × Nat)) :
  (lines.flatMap (unlessAt positions)).Sublist (lines.map (·.1))
  := by
  induction lines with
  | nil => exact .slnil
  | cons line lines ih =>
    rw [List.flatMap_cons, List.map_cons, unlessAt]
    split
    · exact ih.cons line.1
    · exact ih.cons_cons line.1

/-- The block defines what it defined before, except for the group, and three new variables. -/
theorem exists_sublist_defs_rewrite (hb : f.blocks[id]? = some b) (g : Group) (width : Nat) :
  ∃ l, l.Sublist b.defs ∧ ((rewrite f id g width).block id).defs.Perm
    ([f.varTypes.length, f.varTypes.length + 1, f.varTypes.length + 2] ++ l)
  := by
  have hsublist := (unlessAt_sublist g.members (b.instrs.zipIdx.take (g.last + 1))).append
    (unlessAt_sublist g.members (b.instrs.zipIdx.drop (g.last + 1)))
  rw [← List.map_append, List.take_append_drop, List.zipIdx_map_fst] at hsublist
  refine ⟨b.params ++ _, (List.Sublist.refl _).append (hsublist.filterMap Instr.def?), ?_⟩
  rw [Block.defs, instrs_rewrite_self hb, (sameShape_rewrite f id g width).blockParams,
    show f.block id = b by simp [Function.block, hb], List.filterMap_append, List.filterMap_append,
    List.filterMap_append]
  have hlanes : (laneInstrs g f.varTypes.length).filterMap Instr.def?
      = [f.varTypes.length, f.varTypes.length + 1, f.varTypes.length + 2] := by
    simp [laneInstrs, Instr.def?]
  rw [hlanes, List.append_assoc, ← List.append_assoc b.params, ← List.append_assoc b.params]
  exact List.perm_append_comm_assoc _ _ _

theorem nodup_defs_rewrite (hf : f.verify = .ok ()) (hb : f.blocks[id]? = some b) :
  ((rewrite f id g width).blocks.flatMap Block.defs).Nodup
  := by
  obtain ⟨hssa, -, hlt, -⟩ := Function.verify_iff.mp hf
  obtain ⟨-, hnodup, -⟩ := Function.isSsa_iff.mp hssa
  obtain ⟨hblock, hunique⟩ := nodup_defs_iff_blocks.mp hnodup
  obtain ⟨l, hl, hperm⟩ := exists_sublist_defs_rewrite hb g width
  have hself : f.block id = b := by simp [Function.block, hb]
  have hold : ∀ {d : BlockId} {v}, v ∈ (f.block d).defs → v < f.varTypes.length := by
    intro d v hv
    obtain ⟨site, -, hsite⟩ := mem_defs_iff.mp hv
    exact hsite.lt hf
  have hfresh : ∀ v ∈ [f.varTypes.length, f.varTypes.length + 1, f.varTypes.length + 2],
      f.varTypes.length ≤ v := by simp
  have hnew : ∀ {d : BlockId} {v}, v ∈ ((rewrite f id g width).block d).defs →
      v ∈ (f.block d).defs ∨ (d = id ∧ f.varTypes.length ≤ v) := by
    intro d v hv
    by_cases hd : d = id
    · subst hd
      rcases List.mem_append.mp (hperm.mem_iff.mp hv) with hv | hv
      · exact .inr ⟨rfl, hfresh v hv⟩
      · exact .inl (hself ▸ hl.subset hv)
    · rw [block_rewrite_of_ne hd] at hv
      exact .inl hv
  rw [nodup_defs_iff_blocks]
  constructor
  · intro d
    by_cases hd : d = id
    · subst hd
      rw [hperm.nodup_iff, List.nodup_append]
      refine ⟨by simp, (hself ▸ hblock d).sublist hl, ?_⟩
      rintro v hv w hw rfl
      exact Nat.not_lt_of_le (hfresh v hv) (hold (hself ▸ hl.subset hw))
    · rw [block_rewrite_of_ne hd]
      exact hblock d
  · intro d d' v hv hv'
    rcases hnew hv with hv | ⟨rfl, hle⟩
    · rcases hnew hv' with hv' | ⟨-, hle⟩
      · exact hunique d d' v hv hv'
      · exact absurd (hold hv) (Nat.not_lt_of_le hle)
    · rcases hnew hv' with hv' | ⟨rfl, -⟩
      · exact absurd (hold hv') (Nat.not_lt_of_le hle)
      · rfl

theorem replaces_rewrite (hg : IsGroup f b constants width g chain) (hf : f.verify = .ok ())
    (hb : f.blocks[id]? = some b) (hwidth : 0 < width) :
  Replaces f (rewrite f id g width) (IsHidden f width chain) (replacement f id g)
  := by
  have hssa := Function.isSsa_of_verify hf
  have hself : f.block id = b := by simp [Function.block, hb]
  refine (sameShape_rewrite f id g width).replaces hssa (instrs_rewrite hb (hg.last_lt hwidth))
    (nodup_defs_rewrite hf hb) ?_ ?_ ?_
  · intro d j i hi v hdef hread
    refine ⟨i, ?_, hdef⟩
    unfold replacement
    split
    · next hd =>
      subst hd
      refine List.mem_append_left _ ?_
      have hmember : j ∉ g.members := fun hj => hread (hg.isHidden_of_def? (hself ▸ hi) hj hdef)
      simp [unlessAt, hmember]
    · simp
  · intro d hd j i hi known hknown
    have hread : (d = id → j ∉ g.members) → ∀ v ∈ i.uses, known v := by
      intro hmember v hv
      refine hknown v ?_ (hg.not_isHidden_of_mem_uses hf hb hd hi hmember hv)
      exact hssa.isDefinedAt_of_mem_uses hd (hssa.getElem?_block hd) hi hv
    unfold replacement
    split
    · rw [scoped_append]
      constructor
      · unfold unlessAt
        split
        · simp [Scoped]
        · next hmember => exact ⟨hread fun _ => hmember, by simp [Scoped]⟩
      · split
        · simp [laneInstrs, Scoped, Instr.uses, Instr.def?]
        · simp [Scoped]
    · next hne => exact ⟨hread fun hd => absurd hd hne, by simp [Scoped]⟩
  · intro d hd v hv
    exact hg.not_isHidden_of_mem_terminator hf hb hd hv

theorem HasLanes.arrayIn {slot : SlotId} {element : ValueType} {stop : Nat}
    (h : HasLanes f slot element stop) :
  ∃ length, Verify.arrayIn f slot = .ok (element, length) ∧ stop ≤ length
  := by
  obtain ⟨length, harray, hle⟩ := h
  refine ⟨length, Verify.arrayIn_eq_ok.mpr ?_, hle⟩
  unfold Function.slotType at harray
  cases hslot : f.slots[slot]? with
  | none =>
    rw [hslot] at harray
    cases harray
  | some s =>
    rw [hslot] at harray
    refine ⟨s, rfl, ?_⟩
    cases htype : s.type with
    | array =>
      simp only [Option.map_some, htype, Option.getD_some, ValueType.array?, Option.some.injEq,
        Prod.mk.injEq] at harray
      rw [harray.1, harray.2]
    | _ => simp [htype, ValueType.array?] at harray

/-- The vector instructions have the right types. -/
theorem IsGroup.instr_eq_ok (hg : IsGroup f b constants width g chain) {i : Instr}
    (hi : i ∈ laneInstrs g f.varTypes.length) :
  Verify.instr (rewrite f id g width) i = .ok ()
    ∧ ∀ v, i.def? = some v → v < (rewrite f id g width).varTypes.length
  := by
  have hextends := extends_rewrite f id g width
  have htype : ∀ k : Nat, k < 3 → (rewrite f id g width).varTypes[f.varTypes.length + k]?
      = some (laneVector g width) := by
    intro k hk
    rw [varTypes_rewrite, List.getElem?_append_right (Nat.le_add_right _ _), Nat.add_sub_cancel_left]
    interval_cases k <;> rfl
  have hlanes : ∀ k : Nat, k < 3 → ∀ {slot}, HasLanes f slot g.element (g.start + width) →
      Verify.lanes (rewrite f id g width) (f.varTypes.length + k) slot g.start = .ok () := by
    intro k hk slot hslot
    obtain ⟨length, harray, hle⟩ := hslot.arrayIn
    unfold Verify.lanes
    rw [Verify.arrayIn_of_extends hextends, bind_eq_ok]
    refine ⟨_, harray, bind_eq_ok.mpr ⟨_, Verify.varType_eq_ok.mpr (htype k hk), ?_⟩⟩
    simp only [laneVector, check_bind_eq_ok, Verify.ensure_eq_ok, decide_true, true_and,
      decide_eq_true_eq]
    exact hle
  have hlength : (rewrite f id g width).varTypes.length = f.varTypes.length + 3 := by
    rw [varTypes_rewrite]
    simp
  have hsame : ∀ k k' : Nat, k < 3 → k' < 3 → Verify.same (rewrite f id g width)
      (f.varTypes.length + k) (f.varTypes.length + k') = .ok () :=
    fun k k' hk hk' => Verify.same_eq_ok.mpr ⟨_, htype k hk, htype k' hk'⟩
  simp only [laneInstrs, List.mem_cons, List.not_mem_nil, or_false] at hi
  rw [hlength]
  rcases hi with rfl | rfl | rfl | rfl
  · exact ⟨hlanes 0 (by decide) hg.lhs, fun v hv => by cases hv; exact Nat.lt_add_of_pos_right (by decide)⟩
  · exact ⟨hlanes 1 (by decide) hg.rhs, fun v hv => by cases hv; exact Nat.add_lt_add_left (by decide) _⟩
  · refine ⟨?_, fun v hv => by cases hv; exact Nat.add_lt_add_left (by decide) _⟩
    unfold Verify.instr
    refine check_bind_eq_ok.mpr ⟨hsame 0 1 (by decide) (by decide), ?_⟩
    refine check_bind_eq_ok.mpr ⟨hsame 2 0 (by decide) (by decide), ?_⟩
    refine bind_eq_ok.mpr ⟨_, Verify.varType_eq_ok.mpr (htype 2 (by decide)), ?_⟩
    exact Verify.ensure_eq_ok.mpr hg.laneWise
  · exact ⟨hlanes 2 (by decide) hg.dest, fun v hv => by cases hv⟩

/-- A function stays well-formed when a group is replaced. -/
theorem IsGroup.verify_rewrite (hg : IsGroup f b constants width g chain) (hf : f.verify = .ok ())
    (hb : f.blocks[id]? = some b) (hwidth : 0 < width) :
  (rewrite f id g width).verify = .ok ()
  := by
  have hssa := Function.isSsa_of_verify hf
  have hnew := (replaces_rewrite hg hf hb hwidth).isSsa hssa
  refine Function.verify_of_sameShape hf hnew (sameShape_rewrite f id g width)
    (extends_rewrite f id g width) fun d i hi => ?_
  rw [instrs_rewrite hb (hg.last_lt hwidth)] at hi
  obtain ⟨⟨i', j⟩, hmem, hi⟩ := List.mem_flatMap.mp hi
  have hi' := List.mem_of_getElem? (List.mk_mem_zipIdx_iff_getElem?.mp hmem)
  unfold replacement at hi
  split at hi
  · rcases List.mem_append.mp hi with hi | hi
    · unfold unlessAt at hi
      split at hi
      · cases hi
      · obtain rfl := List.mem_singleton.mp hi
        exact .inl hi'
    · split at hi
      · exact .inr (hg.instr_eq_ok hi)
      · cases hi
  · obtain rfl := List.mem_singleton.mp hi
    exact .inl hi'

end

end FormCompiler.Flow.Lanes
