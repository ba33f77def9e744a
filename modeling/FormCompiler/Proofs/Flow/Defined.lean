import FormCompiler.Proofs.Flow.Dominance
import FormCompiler.Proofs.Flow.Verify

/-!
# Where variables are defined

A variable is *defined at* a position of a block if its definition comes earlier in the block or in
another block that dominates it. In a well-formed function every variable that a reachable block
reads is defined at the position of the read. Going backwards, a variable that is defined at the
start of a block is a parameter of the block, or it is defined at the end of every block before.
-/

namespace FormCompiler.Flow

namespace Verify

/-- What it means that a variable is defined at a site. -/
def IsSite (f : Function) (v : VarId) (site : Site) : Prop :=
  ∃ b, f.blocks[site.block]? = some b ∧
    match site.position with
    | none => v ∈ b.params
    | some j => ∃ i, b.instrs[j]? = some i ∧ i.def? = some v

theorem mem_allSites {f : Function} {v : VarId} {site : Site} :
  (v, site) ∈ allSites f ↔ IsSite f v site
  := by
  obtain ⟨id, position⟩ := site
  simp only [allSites, sites, IsSite, List.mem_flatMap, List.mem_append, List.mem_map,
    List.mem_filterMap, Option.map_eq_some_iff, Prod.exists, Prod.mk.injEq,
    Site.mk.injEq, List.mk_mem_zipIdx_iff_getElem?]
  constructor
  · rintro ⟨b, _, hb, ⟨w, hw, rfl, rfl, rfl⟩ | ⟨i, j, hi, w, hdef, rfl, rfl, rfl⟩⟩
    · exact ⟨b, hb, hw⟩
    · exact ⟨b, hb, i, hi, hdef⟩
  · rintro ⟨b, hb, hsite⟩
    refine ⟨b, id, hb, ?_⟩
    cases position with
    | none => exact .inl ⟨v, hsite, rfl, rfl, rfl⟩
    | some j =>
      obtain ⟨i, hi, hdef⟩ := hsite
      exact .inr ⟨i, j, hi, v, hdef, rfl, rfl, rfl⟩

/-- A variable is defined before a position of a block, on every path. -/
def IsDefinedAt (f : Function) (id : BlockId) (position : Nat) (v : VarId) : Prop :=
  ∃ site, IsSite f v site ∧
    ((site.block = id ∧ ∀ j, site.position = some j → j < position)
      ∨ (site.block ≠ id ∧ f.dominates site.block id = true))

section

variable {f : Function} {id : BlockId} {b : Block} {v : VarId}
variable {position j : Nat}

theorem IsDefinedAt.mono {later : Nat} (h : IsDefinedAt f id position v) (hle : position ≤ later) :
  IsDefinedAt f id later v
  := by
  obtain ⟨site, hsite, hwhere⟩ := h
  refine ⟨site, hsite, hwhere.imp_left ?_⟩
  rintro ⟨hblock, hposition⟩
  exact ⟨hblock, fun j hj => (hposition j hj).trans_le hle⟩

/-- What an instruction does not define is defined before it if it is after it. -/
theorem IsDefinedAt.of_succ (h : IsDefinedAt f id (j + 1) v) (hb : f.blocks[id]? = some b)
    (hdef : ∀ i, b.instrs[j]? = some i → i.def? ≠ some v) :
  IsDefinedAt f id j v
  := by
  obtain ⟨site, hsite, hwhere⟩ := h
  refine ⟨site, hsite, hwhere.imp_left ?_⟩
  rintro ⟨hblock, hposition⟩
  refine ⟨hblock, fun k hk => Nat.lt_of_le_of_ne (Nat.le_of_lt_succ (hposition k hk)) ?_⟩
  rintro rfl
  obtain ⟨b', hb', hmatch⟩ := hsite
  rw [hblock, hb] at hb'
  obtain rfl := Option.some.inj hb'
  rw [hk] at hmatch
  obtain ⟨i, hi, hdef'⟩ := hmatch
  exact hdef i hi hdef'

/-- The definitions of a block are defined at its end. -/
theorem isDefinedAt_of_site {site : Site} (hsite : IsSite f v site)
    (hb : f.blocks[site.block]? = some b) :
  IsDefinedAt f site.block b.body.length v
  := by
  refine ⟨site, hsite, .inl ⟨rfl, fun j hj => ?_⟩⟩
  obtain ⟨b', hb', hmatch⟩ := hsite
  rw [hb] at hb'
  obtain rfl := Option.some.inj hb'
  rw [hj] at hmatch
  obtain ⟨i, hi, -⟩ := hmatch
  obtain ⟨hlt, -⟩ := List.getElem?_eq_some_iff.mp hi
  simpa [Block.instrs] using hlt

/-- What is defined at the start of a block is a parameter or defined at the end of those before. -/
theorem IsDefinedAt.of_successor
    {next : BlockId} (h : IsDefinedAt f next 0 v) (hid : id ∈ f.reversePostorder)
    (hnext : next ∈ f.successors id) (hb : f.blocks[id]? = some b) :
  v ∈ (f.block next).params ∨ IsDefinedAt f id b.body.length v
  := by
  obtain ⟨site, hsite, ⟨hblock, hposition⟩ | ⟨hne, hdominates⟩⟩ := h
  · left
    obtain ⟨b', hb', hmatch⟩ := hsite
    cases hsome : site.position with
    | some j => exact absurd (hposition j hsome) (Nat.not_lt_zero j)
    | none =>
      rw [hsome] at hmatch
      rw [hblock] at hb'
      simpa [Function.block, hb'] using hmatch
  · right
    by_cases hblock : site.block = id
    · subst hblock
      exact isDefinedAt_of_site hsite hb
    · exact ⟨site, hsite, .inr ⟨hblock, Function.dominates_of_successor hdominates hne hid hnext⟩⟩

/-- Only its parameters are defined at the start of the entry. -/
theorem IsDefinedAt.of_entry (h : IsDefinedAt f f.entry 0 v) :
  v ∈ (f.block f.entry).params
  := by
  obtain ⟨site, hsite, ⟨hblock, hposition⟩ | ⟨hne, hdominates⟩⟩ := h
  · obtain ⟨b', hb', hmatch⟩ := hsite
    cases hsome : site.position with
    | some j => exact absurd (hposition j hsome) (Nat.not_lt_zero j)
    | none =>
      rw [hsome] at hmatch
      rw [hblock] at hb'
      simpa [Function.block, hb'] using hmatch
  · obtain ⟨-, hnot⟩ := (Function.dominates_iff.mp hdominates).resolve_left hne
    exact absurd (.entry (by simpa using hne.symm)) hnot

/-! ## Reads -/

theorem definedBefore_eq_ok {definitions : List (VarId × Site)} :
  definedBefore f definitions id v position = .ok ()
    ↔ ∃ site, definitions.lookup v = some site ∧
      if site.block = id then site.position.all (· < position) = true
      else f.dominates site.block id = true
  := by
  unfold definedBefore
  cases definitions.lookup v with
  | none => simp [throw, throwThe, MonadExceptOf.throw]
  | some site =>
    simp only [ensure_eq_ok, Option.some.injEq, exists_eq_left']
    split <;> rfl

variable (h : f.verify = .ok ())

include h

/-- In a well-formed function, reads are of variables that are defined there. -/
theorem isDefinedAt_of_mem_reads (hid : id ∈ f.reversePostorder) (hb : f.blocks[id]? = some b)
    (hread : (v, position) ∈ reads b) :
  IsDefinedAt f id position v
  := by
  obtain ⟨-, -, -, hdominance⟩ := Function.verify_eq_ok.mp h
  have hcheck := hdominance id b hb
  rw [dominance, if_pos (by simpa [Function.isReachable] using hid), forM_eq_ok] at hcheck
  obtain ⟨site, hlookup, hwhere⟩ := definedBefore_eq_ok.mp (hcheck (v, position) hread)
  obtain ⟨before, after, hsites, -⟩ := List.lookup_eq_some_iff.mp hlookup
  have hmem : (v, site) ∈ allSites f := by
    rw [hsites]
    simp
  refine ⟨site, mem_allSites.mp hmem, ?_⟩
  split at hwhere
  · next hblock =>
    refine .inl ⟨hblock, fun j hj => ?_⟩
    rw [hj] at hwhere
    simpa using hwhere
  · next hne => exact .inr ⟨hne, hwhere⟩

theorem isDefinedAt_of_mem_uses (hid : id ∈ f.reversePostorder) (hb : f.blocks[id]? = some b) {i : Instr}
    (hi : b.instrs[j]? = some i) (hv : v ∈ i.uses) :
  IsDefinedAt f id j v
  := by
  apply isDefinedAt_of_mem_reads h hid hb
  apply List.mem_append_left
  rw [List.mem_flatMap]
  exact ⟨(i, j), List.mk_mem_zipIdx_iff_getElem?.mpr hi, List.mem_map.mpr ⟨v, hv, rfl⟩⟩

theorem isDefinedAt_of_mem_terminator (hid : id ∈ f.reversePostorder) (hb : f.blocks[id]? = some b)
    (hv : v ∈ b.terminator.uses) :
  IsDefinedAt f id b.body.length v
  := by
  apply isDefinedAt_of_mem_reads h hid hb
  apply List.mem_append_right
  exact List.mem_map.mpr ⟨v, hv, rfl⟩

/-! ## Types -/

/-- What is defined has a type. -/
theorem IsSite.lt {site : Site} (hsite : IsSite f v site) :
  v < f.varTypes.length
  := by
  obtain ⟨-, hdefinitions, -⟩ := Function.verify_eq_ok.mp h
  obtain ⟨-, htypes⟩ := nodup_of_definitions hdefinitions
  exact (htypes v (List.mem_map.mpr ⟨(v, site), mem_allSites.mpr hsite, rfl⟩)).1

theorem lt_of_mem_params (hb : f.blocks[id]? = some b) (hv : v ∈ b.params) :
  v < f.varTypes.length
  := by
  have hsite : IsSite f v ⟨id, none⟩ := ⟨b, hb, hv⟩
  exact hsite.lt h

theorem lt_of_def? (hb : f.blocks[id]? = some b) {i : Instr} (hi : i ∈ b.instrs) (hdef : i.def? = some v) :
  v < f.varTypes.length
  := by
  obtain ⟨j, hj⟩ := List.getElem?_of_mem hi
  have hsite : IsSite f v ⟨id, some j⟩ := ⟨b, hb, i, hj, hdef⟩
  exact hsite.lt h

theorem IsDefinedAt.lt (hv : IsDefinedAt f id position v) :
  v < f.varTypes.length
  := by
  obtain ⟨site, hsite, -⟩ := hv
  exact hsite.lt h

/-- The instructions of a well-formed function are well-typed. -/
theorem instr_eq_ok (hb : f.blocks[id]? = some b) {i : Instr} (hi : i ∈ b.instrs) :
  instr f i = .ok ()
  := by
  obtain ⟨-, -, hblocks, -⟩ := Function.verify_eq_ok.mp h
  obtain ⟨⟨⟩, hinstrs, -⟩ := bind_eq_ok.mp (hblocks id b hb)
  exact forM_eq_ok.mp hinstrs i hi

/-- The terminators of a well-formed function are well-typed. -/
theorem terminator_eq_ok (hb : f.blocks[id]? = some b) :
  terminator f b.terminator = .ok ()
  := by
  obtain ⟨-, -, hblocks, -⟩ := Function.verify_eq_ok.mp h
  obtain ⟨⟨⟩, -, hterminator⟩ := bind_eq_ok.mp (hblocks id b hb)
  exact hterminator

/-! ## Blocks -/

/-- Control goes to blocks that exist. -/
theorem lt_of_mem_successors {next : BlockId} (hnext : next ∈ f.successors id) :
  next < f.blocks.length
  := by
  unfold Function.successors Function.block at hnext
  cases hb : f.blocks[id]? with
  | none => simp [List.getD, hb, Block.empty, Terminator.successors] at hnext
  | some b =>
    simp only [List.getD, hb, Option.getD_some] at hnext
    exact lt_of_checked_terminator (terminator_eq_ok h hb) hnext

/-- Blocks that are reached exist. -/
theorem lt_of_mem_reversePostorder (hid : id ∈ f.reversePostorder) :
  id < f.blocks.length
  := by
  have hreaches := Function.mem_reachedAvoiding.mp hid
  cases hreaches with
  | entry =>
    obtain ⟨b, hb, -⟩ := entry_of_shape (Function.verify_eq_ok.mp h).1
    exact (List.getElem?_eq_some_iff.mp hb).1
  | step _ hnext _ => exact lt_of_mem_successors h hnext

theorem getElem?_of_mem_reversePostorder (hid : id ∈ f.reversePostorder) :
  f.blocks[id]? = some (f.block id)
  := by
  simp [Function.block, lt_of_mem_reversePostorder h hid]

end

end Verify

end FormCompiler.Flow
