import FormCompiler.Proofs.Flow.Scope

/-!
# Replaced instructions and natural loops

Most passes put other instructions in the place of single ones. `Replaces` says what such a pass has
to get right so that the function stays in single assignment form: some variables may be *hidden*,
that is, lose their definitions or get new ones, if nothing that is left reads them; and what the
new instructions read has been defined before in the old function.

A loop is *well-formed* if control gets into its blocks only from the preheader, and only to the
header. If a run does not start inside of it, then control has been in the preheader before it gets
to any block of the loop, and at first without having been in the loop. So the preheader dominates
the loop, no block of the loop dominates the preheader, and what dominates a block of the loop from
outside dominates the preheader.
-/

namespace FormCompiler.Flow

open Verify (IsSite IsDefinedAt Site)

variable {f : Function} {l : LoopInfo}

/-- Instructions are scoped if what replaces each of them reads only what is known at its position. -/
theorem scoped_flatMap {instrs : List Instr} {new : Instr × Nat → List Instr} {k : Nat}
    (defined : Nat → VarId → Prop) {known : VarId → Prop} {last : List VarId}
    (hknown : ∀ v, defined k v → known v)
    (hnew : ∀ j i, instrs[j]? = some i → ∀ known : VarId → Prop, (∀ v, defined (k + j) v → known v) →
      Scoped known (new (i, k + j)) []
        ∧ ∀ v, defined (k + j + 1) v → known v ∨ ∃ i' ∈ new (i, k + j), i'.def? = some v)
    (hlast : ∀ v ∈ last, defined (k + instrs.length) v) :
  Scoped known ((instrs.zipIdx k).flatMap new) last
  := by
  induction instrs generalizing k known with
  | nil => exact fun v hv => hknown v (hlast v hv)
  | cons i rest ih =>
    obtain ⟨hfirst, hnext⟩ := hnew 0 i rfl known hknown
    rw [List.zipIdx_cons, List.flatMap_cons, scoped_append]
    refine ⟨hfirst, ih hnext (fun j i' hi' => ?_) fun v hv => ?_⟩
    · have hrest := hnew (j + 1) i' (by rwa [List.getElem?_cons_succ])
      rwa [show k + (j + 1) = k + 1 + j by omega] at hrest
    · have hend := hlast v hv
      rwa [List.length_cons, show k + (rest.length + 1) = k + 1 + rest.length by omega] at hend

/-- A function with other instructions in place of each instruction of another function. -/
structure Replaces (f g : Function) (hidden : VarId → Prop)
    (new : BlockId → Instr × Nat → List Instr) : Prop where
  entry : g.entry = f.entry
  params : ∃ b, g.blocks[g.entry]? = some b ∧ b.params = g.params
  edges : ∀ id, ∀ next ∈ g.successors id, next ∈ f.successors id
  instrs : ∀ id, (g.block id).instrs = (f.block id).instrs.zipIdx.flatMap (new id)
  nodup : (g.blocks.flatMap Block.defs).Nodup
  jump : ∀ (id : BlockId) b target args, g.blocks[id]? = some b → b.terminator = .jump target args →
    target < g.blocks.length ∧ (g.block target).params.length = args.length
  branch : ∀ (id : BlockId) b test thenBlock elseBlock, g.blocks[id]? = some b →
    b.terminator = .branch test thenBlock elseBlock →
    ∀ next ∈ [thenBlock, elseBlock], next < g.blocks.length ∧ (g.block next).params = []
  blockParams : ∀ id, ∀ v ∈ (f.block id).params, ¬hidden v → v ∈ (g.block id).params
  defs : ∀ (id : BlockId) j i, (f.block id).instrs[j]? = some i → ∀ v, i.def? = some v → ¬hidden v →
    ∃ i' ∈ new id (i, j), i'.def? = some v
  reads : ∀ id ∈ f.reversePostorder, ∀ j i, (f.block id).instrs[j]? = some i →
    ∀ known : VarId → Prop, (∀ v, IsDefinedAt f id j v → ¬hidden v → known v) →
    Scoped known (new id (i, j)) []
  last : ∀ id ∈ f.reversePostorder, ∀ v ∈ (g.block id).terminator.uses,
    IsDefinedAt f id (f.block id).body.length v ∧ ¬hidden v

namespace Replaces

variable {f g : Function} {hidden : VarId → Prop} {new : BlockId → Instr × Nat → List Instr}
  {id : BlockId} {v : VarId}

variable (h : Replaces f g hidden new)

include h

theorem mem_reversePostorder (hid : id ∈ g.reversePostorder) :
  id ∈ f.reversePostorder
  := Function.mem_reversePostorder_of_successors hid h.entry h.edges

/-- The variables that are not hidden keep their definitions. -/
theorem mem_defs (hv : v ∈ (f.block id).defs) (hhidden : ¬hidden v) :
  v ∈ (g.block id).defs
  := by
  rcases List.mem_append.mp hv with hparam | hinstr
  · exact List.mem_append_left _ (h.blockParams id v hparam hhidden)
  · obtain ⟨i, hi, hdef⟩ := List.mem_filterMap.mp hinstr
    obtain ⟨j, hj⟩ := List.getElem?_of_mem hi
    obtain ⟨i', hi', hdef'⟩ := h.defs id j i hj v hdef hhidden
    refine List.mem_append_right _ (List.mem_filterMap.mpr ⟨i', ?_, hdef'⟩)
    rw [h.instrs id]
    exact List.mem_flatMap.mpr ⟨(i, j), List.mk_mem_zipIdx_iff_getElem?.mpr hj, hi'⟩

theorem isKnown (hid : id ∈ g.reversePostorder) (hv : IsKnown f id v) (hhidden : ¬hidden v) :
  IsKnown g id v
  := by
  rcases hv with hparam | ⟨d, hne, hdominates, hdef⟩
  · exact .inl (h.blockParams id v hparam hhidden)
  · exact .inr ⟨d, hne, Function.dominates_of_successors hdominates hid h.entry h.edges,
      h.mem_defs hdef hhidden⟩

/-- Single assignment form is kept. -/
theorem isSsa (hf : f.IsSsa) :
  g.IsSsa
  := by
  rw [Function.isSsa_iff]
  refine ⟨h.params, h.nodup, h.jump, h.branch, fun id hid b hb => ?_⟩
  have hidf := h.mem_reversePostorder hid
  have hbf := hf.getElem?_block hidf
  obtain rfl : g.block id = b := by simp [Function.block, hb]
  rw [h.instrs id]
  refine scoped_flatMap (fun j v => IsDefinedAt f id j v ∧ ¬hidden v) ?_ ?_ ?_
  · rintro v ⟨hv, hhidden⟩
    refine h.isKnown hid (((isDefinedAt_iff hbf).mp hv).resolve_right ?_) hhidden
    rintro ⟨k, hk, -⟩
    exact Nat.not_lt_zero k hk
  · intro j i hi known hknown
    rw [Nat.zero_add] at hknown ⊢
    refine ⟨h.reads id hidf j i hi known fun v hv hhidden => hknown v ⟨hv, hhidden⟩, ?_⟩
    rintro v ⟨hv, hhidden⟩
    by_cases hdef : i.def? = some v
    · exact .inr (h.defs id j i hi v hdef hhidden)
    · refine .inl (hknown v ⟨hv.of_succ hbf fun i' hi' => ?_, hhidden⟩)
      rw [hi] at hi'
      obtain rfl := Option.some.inj hi'
      exact hdef
  · intro v hv
    rw [Nat.zero_add, Block.length_instrs]
    exact h.last id hidf v hv

end Replaces

/-! ## Functions with the same blocks -/

theorem Function.block_modifyBlock {id : BlockId} (hid : id < f.blocks.length) (change : Block → Block) (d : BlockId) :
  (f.modifyBlock id change).block d = if d = id then change (f.block d) else f.block d
  := by
  simp only [Function.modifyBlock, Function.block, List.getD_eq_getElem?_getD, List.getElem?_modify]
  split
  · next heq =>
    subst heq
    simp [hid]
  · next hne =>
    rw [if_neg (fun heq => hne heq.symm)]
    simp

/-- Two functions differ only in instructions, and in names and types of variables and slots. -/
structure SameShape (f g : Function) : Prop where
  entry : g.entry = f.entry
  params : g.params = f.params
  result : g.result = f.result
  loops : g.loops = f.loops
  length : g.blocks.length = f.blocks.length
  blockParams : ∀ id, (g.block id).params = (f.block id).params
  terminator : ∀ id, (g.block id).terminator = (f.block id).terminator

namespace SameShape

variable {f g : Function}

theorem successors (h : SameShape f g) (id : BlockId) :
  g.successors id = f.successors id
  := congrArg Terminator.successors (h.terminator id)

theorem getElem?_block {id : BlockId} (h : SameShape f g) {b : Block} (hb : g.blocks[id]? = some b) :
  f.blocks[id]? = some (f.block id) ∧ g.block id = b
  := by
  have hlt : id < f.blocks.length := h.length ▸ (List.getElem?_eq_some_iff.mp hb).1
  exact ⟨by simp [Function.block, hlt], by simp [Function.block, hb]⟩

theorem replaces (h : SameShape f g) (hf : f.IsSsa) {hidden : VarId → Prop}
    {new : BlockId → Instr × Nat → List Instr}
    (hinstrs : ∀ id, (g.block id).instrs = (f.block id).instrs.zipIdx.flatMap (new id))
    (hnodup : (g.blocks.flatMap Block.defs).Nodup)
    (hdefs : ∀ (id : BlockId) j i, (f.block id).instrs[j]? = some i → ∀ v, i.def? = some v →
      ¬hidden v → ∃ i' ∈ new id (i, j), i'.def? = some v)
    (hreads : ∀ id ∈ f.reversePostorder, ∀ j i, (f.block id).instrs[j]? = some i →
      ∀ known : VarId → Prop, (∀ v, IsDefinedAt f id j v → ¬hidden v → known v) →
      Scoped known (new id (i, j)) [])
    (hlast : ∀ id ∈ f.reversePostorder, ∀ v ∈ (f.block id).terminator.uses, ¬hidden v) :
  Replaces f g hidden new
  where
  entry := h.entry
  params := by
    obtain ⟨b, hb, hparams⟩ := hf.entry
    have hlt : g.entry < g.blocks.length := by
      rw [h.entry, h.length]
      exact (List.getElem?_eq_some_iff.mp hb).1
    refine ⟨g.block g.entry, by simp [Function.block, hlt], ?_⟩
    rw [h.blockParams, h.entry, h.params, ← hparams]
    simp [Function.block, hb]
  edges id next hnext := h.successors id ▸ hnext
  instrs := hinstrs
  nodup := hnodup
  jump id b target args hb hterminator := by
    obtain ⟨hbf, rfl⟩ := h.getElem?_block hb
    rw [h.terminator] at hterminator
    rw [h.length, h.blockParams]
    exact hf.jump hbf hterminator
  branch id b test thenBlock elseBlock hb hterminator next hnext := by
    obtain ⟨hbf, rfl⟩ := h.getElem?_block hb
    rw [h.terminator] at hterminator
    rw [h.length, h.blockParams]
    exact hf.branch hbf hterminator next hnext
  blockParams id v hv _ := h.blockParams id ▸ hv
  defs := hdefs
  reads := hreads
  last id hid v hv := by
    rw [h.terminator] at hv
    exact ⟨hf.isDefinedAt_of_mem_terminator hid (hf.getElem?_block hid) hv, hlast id hid v hv⟩

theorem refl (f : Function) :
  SameShape f f
  := ⟨rfl, rfl, rfl, rfl, rfl, fun _ => rfl, fun _ => rfl⟩

theorem trans {h : Function} (hfg : SameShape f g) (hgh : SameShape g h) :
  SameShape f h
  where
  entry := hgh.entry.trans hfg.entry
  params := hgh.params.trans hfg.params
  result := hgh.result.trans hfg.result
  loops := hgh.loops.trans hfg.loops
  length := hgh.length.trans hfg.length
  blockParams id := (hgh.blockParams id).trans (hfg.blockParams id)
  terminator id := (hgh.terminator id).trans (hfg.terminator id)

theorem mem_reversePostorder (hfg : SameShape f g) {id : BlockId} :
  id ∈ g.reversePostorder ↔ id ∈ f.reversePostorder
  := by
  constructor
  · exact fun hid => Function.mem_reversePostorder_of_successors hid hfg.entry fun id next hnext =>
      hfg.successors id ▸ hnext
  · exact fun hid => Function.mem_reversePostorder_of_successors hid hfg.entry.symm fun id next hnext =>
      (hfg.successors id).symm ▸ hnext

theorem dominates (hfg : SameShape f g) {d b : BlockId} (hb : b ∈ f.reversePostorder)
    (hdominates : f.dominates d b = true) :
  g.dominates d b = true
  := Function.dominates_of_successors hdominates (hfg.mem_reversePostorder.mpr hb) hfg.entry
    fun id _ hnext => hfg.successors id ▸ hnext

theorem predecessors (h : SameShape f g) (id : BlockId) :
  g.predecessors id = f.predecessors id
  := by
  simp only [Function.predecessors, h.length, h.successors]

/-- The function with another body in a block has the same shape. -/
theorem modifyBody {id : BlockId} (hid : id < f.blocks.length) (body : List Line) :
  SameShape f (f.modifyBlock id fun b => { b with body := body })
  := by
  refine ⟨rfl, rfl, rfl, rfl, by simp [Function.modifyBlock], fun d => ?_, fun d => ?_⟩
  · rw [Function.block_modifyBlock hid]
    split <;> rfl
  · rw [Function.block_modifyBlock hid]
    split <;> rfl

/-- Single assignment form is a matter of definitions and reads. -/
theorem isSsa_of_nodup (h : SameShape f g) (hf : f.IsSsa)
    (hnodup : (g.blocks.flatMap Block.defs).Nodup)
    (hscoped : ∀ id ∈ f.reversePostorder,
      Scoped (IsKnown g id) (g.block id).instrs (g.block id).terminator.uses) :
  g.IsSsa
  := by
  obtain ⟨⟨b, hb, hparams⟩, -, hjump, hbranch, -⟩ := Function.isSsa_iff.mp hf
  rw [Function.isSsa_iff]
  refine ⟨?_, hnodup, ?_, ?_, ?_⟩
  · have hlt : g.entry < g.blocks.length := by
      rw [h.entry, h.length]
      exact (List.getElem?_eq_some_iff.mp hb).1
    refine ⟨g.block g.entry, by simp [Function.block, hlt], ?_⟩
    rw [h.blockParams, h.entry, h.params, ← hparams]
    simp [Function.block, hb]
  · intro id b target args hb hterminator
    obtain ⟨hbf, rfl⟩ := h.getElem?_block hb
    rw [h.terminator] at hterminator
    rw [h.length, h.blockParams]
    exact hjump id _ target args hbf hterminator
  · intro id b test thenBlock elseBlock hb hterminator next hnext
    obtain ⟨hbf, rfl⟩ := h.getElem?_block hb
    rw [h.terminator] at hterminator
    rw [h.length, h.blockParams]
    exact hbranch id _ test thenBlock elseBlock hbf hterminator next hnext
  · intro id hid b hb
    obtain ⟨-, rfl⟩ := h.getElem?_block hb
    exact hscoped id (h.mem_reversePostorder.mp hid)

/-- Dropping instructions that define nothing keeps single assignment form. -/
theorem isSsa_of_scoped (h : SameShape f g) (hf : f.IsSsa)
    (hdefs : ∀ id, (g.block id).defs = (f.block id).defs)
    (hscoped : ∀ id known, Scoped known (f.block id).instrs (f.block id).terminator.uses →
      Scoped known (g.block id).instrs (g.block id).terminator.uses) :
  g.IsSsa
  := by
  refine h.isSsa_of_nodup hf ?_ fun id hid => ?_
  · obtain ⟨-, hnodup, -⟩ := Function.isSsa_iff.mp hf
    rw [nodup_defs_iff_blocks] at hnodup ⊢
    simpa only [hdefs] using hnodup
  · refine (hscoped id _ (hf.scoped hid)).mono fun v hv => ?_
    rcases hv with hparam | ⟨d, hne, hdominates, hdef⟩
    · exact .inl (h.blockParams id ▸ hparam)
    · exact .inr ⟨d, hne, h.dominates hid hdominates, hdefs d ▸ hdef⟩

end SameShape

/-! ## Natural loops -/

/-- The blocks of a loop exist. -/
theorem Verify.lt_of_mem_loop (hf : f.verify = .ok ()) (hl : l ∈ f.loops) {id : BlockId}
    (hid : id ∈ l.preheader :: l.header :: l.latch :: l.exit :: l.blocks) :
  id < f.blocks.length
  := by
  have hshape := (Function.verify_eq_ok.mp hf).1
  rw [Verify.shape, check_bind_eq_ok, check_bind_eq_ok] at hshape
  simpa using forM_eq_ok.mp (forM_eq_ok.mp hshape.2.2 l hl) id hid

/-- Control gets into the blocks of a loop from the preheader to the header only. -/
structure LoopInfo.IsWellFormed (f : Function) (l : LoopInfo) : Prop where
  outside : l.preheader ∉ l.blocks
  jump : ∃ args, (f.block l.preheader).terminator = .jump l.header args
  header : l.header ∈ l.blocks
  edge : ∀ a b, a ∉ l.blocks → b ∈ l.blocks → b ∈ f.successors a → a = l.preheader ∧ b = l.header

/-- Whether a terminator is a jump to a block. -/
def Terminator.jumpsTo (target : BlockId) : Terminator → Bool
  | jump other _ => other == target
  | _ => false

theorem Terminator.jumpsTo_iff {target : BlockId} {t : Terminator} :
  t.jumpsTo target = true ↔ ∃ args, t = .jump target args
  := by
  cases t with
  | jump other args | ret | branch | unreachable => simp [Terminator.jumpsTo]

theorem LoopInfo.isWellFormed_iff :
  l.IsWellFormed f ↔ l.preheader ∉ l.blocks
    ∧ (f.block l.preheader).terminator.jumpsTo l.header = true ∧ l.header ∈ l.blocks
    ∧ ∀ a ∈ List.range f.blocks.length, a ∉ l.blocks → ∀ b ∈ f.successors a, b ∈ l.blocks →
      a = l.preheader ∧ b = l.header
  := by
  rw [Terminator.jumpsTo_iff]
  constructor
  · rintro ⟨houtside, hjump, hheader, hedge⟩
    exact ⟨houtside, hjump, hheader, fun a _ ha b hnext hb => hedge a b ha hb hnext⟩
  · rintro ⟨houtside, hjump, hheader, hedge⟩
    refine ⟨houtside, hjump, hheader, fun a b ha hb hnext => hedge a (List.mem_range.mpr ?_) ha b hnext hb⟩
    by_contra hge
    rw [Function.successors_eq_nil (Nat.le_of_not_lt hge)] at hnext
    cases hnext

instance (f : Function) (l : LoopInfo) : Decidable (l.IsWellFormed f) :=
  decidable_of_iff _ LoopInfo.isWellFormed_iff.symm

namespace LoopInfo.IsWellFormed

variable {f : Function} {l : LoopInfo} {b d : BlockId}

variable (h : l.IsWellFormed f)

include h

theorem header_mem_successors :
  l.header ∈ f.successors l.preheader
  := by
  obtain ⟨args, hjump⟩ := h.jump
  simp [Function.successors, hjump, Terminator.successors]

variable (hentry : f.entry ∉ l.blocks)

include hentry

/-- Until a path has been in the loop, it has not; and before it gets there, it is in the preheader. -/
theorem reaches (hb : f.Reaches [] b) :
  (b ∉ l.blocks → f.Reaches l.blocks b ∨ f.Reaches l.blocks l.preheader)
    ∧ (b ∈ l.blocks → f.Reaches l.blocks l.preheader)
  := by
  induction hb with
  | entry => exact ⟨fun _ => .inl (.entry hentry), fun hmem => absurd hmem hentry⟩
  | @step a b _ hnext _ ih =>
    constructor
    · intro hb
      by_cases ha : a ∈ l.blocks
      · exact .inr (ih.2 ha)
      · exact (ih.1 ha).imp_left fun hreaches => .step hreaches hnext hb
    · intro hb
      by_cases ha : a ∈ l.blocks
      · exact ih.2 ha
      · obtain ⟨rfl, -⟩ := h.edge a b ha hb hnext
        exact (ih.1 ha).elim id id

theorem reaches_preheader (hb : b ∈ l.blocks) (hreached : b ∈ f.reversePostorder) :
  f.Reaches l.blocks l.preheader
  := (h.reaches hentry (Function.mem_reachedAvoiding.mp hreached)).2 hb

theorem preheader_mem (hb : b ∈ l.blocks) (hreached : b ∈ f.reversePostorder) :
  l.preheader ∈ f.reversePostorder
  := Function.mem_reachedAvoiding.mpr ((h.reaches_preheader hentry hb hreached).mono (by simp))

theorem not_dominates_preheader (hb : b ∈ l.blocks) (hreached : b ∈ f.reversePostorder) :
  f.dominates b l.preheader = false
  := by
  rw [← Bool.not_eq_true, Function.dominates_iff]
  rintro (rfl | ⟨-, hnot⟩)
  · exact h.outside hb
  · exact hnot ((h.reaches_preheader hentry hb hreached).mono (by simpa using hb))

theorem preheader_dominates (hb : b ∈ l.blocks) (hreached : b ∈ f.reversePostorder) :
  f.dominates l.preheader b = true
  := by
  refine Function.dominates_iff.mpr (.inr ⟨hreached, fun hreaches => ?_⟩)
  have hout : ∀ x, f.Reaches [l.preheader] x → x ∉ l.blocks := by
    intro x hx
    induction hx with
    | entry => exact hentry
    | @step a x ha hnext _ ih =>
      intro hmem
      obtain ⟨rfl, -⟩ := h.edge a x ih hmem hnext
      exact Function.not_mem_of_reaches ha (by simp)
  exact hout b hreaches hb

/-- From the preheader a path goes on to any block of the loop without leaving the loop. -/
theorem reaches_of_preheader {avoided : List BlockId} (havoided : ∀ x ∈ avoided, x ∉ l.blocks)
    (hpreheader : f.Reaches avoided l.preheader) (hreached : f.Reaches [] b) (hb : b ∈ l.blocks) :
  f.Reaches avoided b
  := by
  induction hreached with
  | entry => exact absurd hb hentry
  | @step a b _ hnext _ ih =>
    have hnot : b ∉ avoided := fun hmem => havoided b hmem hb
    by_cases ha : a ∈ l.blocks
    · exact .step (ih ha) hnext hnot
    · obtain ⟨rfl, -⟩ := h.edge a b ha hb hnext
      exact .step hpreheader hnext hnot

/-- What dominates a block of the loop from outside dominates the preheader. -/
theorem dominates_preheader (hd : d ∉ l.blocks) (hb : b ∈ l.blocks) (hreached : b ∈ f.reversePostorder)
    (hdominates : f.dominates d b = true) :
  f.dominates d l.preheader = true
  := by
  obtain ⟨-, hnot⟩ := (Function.dominates_iff.mp hdominates).resolve_left fun heq => hd (heq ▸ hb)
  refine Function.dominates_iff.mpr (.inr ⟨h.preheader_mem hentry hb hreached, fun hreaches => hnot ?_⟩)
  exact h.reaches_of_preheader hentry (by simpa using hd) hreaches
    (Function.mem_reachedAvoiding.mp hreached) hb

/-- What the loop does not define, but a block of it can read, is defined at the end of the preheader. -/
theorem isDefinedAt_preheader (hf : f.IsSsa) (hb : b ∈ l.blocks) (hreached : b ∈ f.reversePostorder) {position : Nat}
    {v : VarId} (hv : IsDefinedAt f b position v) (hout : ∀ x ∈ l.blocks, v ∉ (f.block x).defs) :
  IsDefinedAt f l.preheader (f.block l.preheader).body.length v
  := by
  obtain ⟨site, hsite, hwhere⟩ := hv
  have hsiteOut : site.block ∉ l.blocks := fun hmem =>
    hout site.block hmem (mem_defs_iff.mpr ⟨site, rfl, hsite⟩)
  rcases hwhere with ⟨rfl, -⟩ | ⟨-, hdominates⟩
  · exact absurd hb hsiteOut
  · by_cases heq : site.block = l.preheader
    · rw [← heq]
      exact Verify.isDefinedAt_of_site hsite
        (hf.getElem?_block (heq ▸ h.preheader_mem hentry hb hreached))
    · exact ⟨site, hsite, .inr ⟨heq, h.dominates_preheader hentry hsiteOut hb hreached hdominates⟩⟩

end LoopInfo.IsWellFormed

/-- A loop stays well-formed as long as control goes the same ways. -/
theorem SameShape.isWellFormed {g : Function} (hfg : SameShape f g) (hl : l.IsWellFormed f) :
  l.IsWellFormed g
  where
  outside := hl.outside
  jump := by
    rw [hfg.terminator]
    exact hl.jump
  header := hl.header
  edge a b ha hb hnext := hl.edge a b ha hb (hfg.successors a ▸ hnext)

end FormCompiler.Flow
