import FormCompiler.Proofs.Flow.Ssa

/-!
# Scopes

Whether the variables that a block reads are defined does not depend on positions: it is enough to
go through its instructions once and to remember what has been defined so far (`Scoped`). So a pass
that drops, adds or replaces instructions only has to say what it does to definitions and reads.
`Function.isSsa_iff` states in this way what single assignment form is, and `Function.verify_iff` what
else a function needs in order to be well-formed.
-/

namespace FormCompiler.Flow

open Verify (IsSite IsDefinedAt Site)

variable {known known' : VarId → Prop} {instrs : List Instr} {last : List VarId}

/-- All variables that instructions read, and some read last, are known or defined before. -/
def Scoped (known : VarId → Prop) : List Instr → List VarId → Prop
  | [], last => ∀ v ∈ last, known v
  | i :: rest, last =>
    (∀ v ∈ i.uses, known v) ∧ Scoped (fun v => known v ∨ i.def? = some v) rest last

theorem Scoped.mono (h : Scoped known instrs last) (hknown : ∀ v, known v → known' v) :
  Scoped known' instrs last
  := by
  induction instrs generalizing known known' with
  | nil => exact fun v hv => hknown v (h v hv)
  | cons i rest ih =>
    refine ⟨fun v hv => hknown v (h.1 v hv), ih h.2 fun v hv => ?_⟩
    exact hv.imp_left (hknown v)

theorem scoped_append {first second : List Instr} :
  Scoped known (first ++ second) last
    ↔ Scoped known first []
      ∧ Scoped (fun v => known v ∨ ∃ i ∈ first, i.def? = some v) second last
  := by
  induction first generalizing known with
  | nil => simp [Scoped]
  | cons i first ih =>
    simp only [List.cons_append, Scoped, ih, and_assoc, List.mem_cons, exists_eq_or_imp, or_assoc]

/-- What is read at a position is known or defined by an instruction before it. -/
theorem scoped_iff :
  Scoped known instrs last
    ↔ (∀ (j : Nat) (i : Instr), instrs[j]? = some i → ∀ v ∈ i.uses,
        known v ∨ ∃ k < j, ∃ i', instrs[k]? = some i' ∧ i'.def? = some v)
      ∧ ∀ v ∈ last, known v ∨ ∃ i ∈ instrs, i.def? = some v
  := by
  induction instrs generalizing known with
  | nil => simp [Scoped]
  | cons i rest ih =>
    rw [Scoped, ih]
    constructor
    · rintro ⟨hfirst, hrest, hlast⟩
      refine ⟨fun j i' hi' v hv => ?_, fun v hv => ?_⟩
      · cases j with
        | zero =>
          obtain rfl : i = i' := by simpa using hi'
          exact .inl (hfirst v hv)
        | succ j =>
          rcases hrest j i' (by simpa using hi') v hv with (hknown | hdef) | ⟨k, hk, i'', hi'', hdef⟩
          · exact .inl hknown
          · exact .inr ⟨0, Nat.succ_pos j, i, rfl, hdef⟩
          · exact .inr ⟨k + 1, Nat.succ_lt_succ hk, i'', by simpa using hi'', hdef⟩
      · rcases hlast v hv with (hknown | hdef) | ⟨i', hi', hdef⟩
        · exact .inl hknown
        · exact .inr ⟨i, by simp, hdef⟩
        · exact .inr ⟨i', by simp [hi'], hdef⟩
    · rintro ⟨hall, hlast⟩
      refine ⟨fun v hv => ?_, fun j i' hi' v hv => ?_, fun v hv => ?_⟩
      · rcases hall 0 i rfl v hv with hknown | ⟨k, hk, -⟩
        · exact hknown
        · exact absurd hk (Nat.not_lt_zero k)
      · rcases hall (j + 1) i' (by simpa using hi') v hv with hknown | ⟨k, hk, i'', hi'', hdef⟩
        · exact .inl (.inl hknown)
        · cases k with
          | zero =>
            obtain rfl : i = i'' := by simpa using hi''
            exact .inl (.inr hdef)
          | succ k => exact .inr ⟨k, Nat.lt_of_succ_lt_succ hk, i'', by simpa using hi'', hdef⟩
      · rcases hlast v hv with hknown | ⟨i', hi', hdef⟩
        · exact .inl (.inl hknown)
        · rcases List.mem_cons.mp hi' with rfl | hi'
          · exact .inl (.inr hdef)
          · exact .inr ⟨i', hi', hdef⟩

/-- Variables that are known need only stay so if they are read. -/
theorem Scoped.mono_of_uses (h : Scoped known instrs last)
    (hknown : ∀ v, (∃ i ∈ instrs, v ∈ i.uses) ∨ v ∈ last → known v → known' v) :
  Scoped known' instrs last
  := by
  rw [scoped_iff] at h ⊢
  constructor
  · intro j i hi v hv
    apply (h.1 j i hi v hv).imp_left
    exact hknown v (.inl ⟨i, List.mem_of_getElem? hi, hv⟩)
  · intro v hv
    apply (h.2 v hv).imp_left
    exact hknown v (.inr hv)

/-! ## What is known at the start of a block -/

/-- A variable is a parameter of a block or defined in another block that dominates it. -/
def IsKnown (f : Function) (id : BlockId) (v : VarId) : Prop :=
  v ∈ (f.block id).params ∨ ∃ d, d ≠ id ∧ f.dominates d id = true ∧ v ∈ (f.block d).defs

section

variable {f : Function} {id : BlockId} {b : Block} {v : VarId}

theorem mem_defs_iff :
  v ∈ (f.block id).defs ↔ ∃ site : Site, site.block = id ∧ IsSite f v site
  := by
  unfold Function.block Block.defs
  constructor
  · intro hv
    cases hb : f.blocks[id]? with
    | none => simp [List.getD, hb, Block.empty, Block.instrs] at hv
    | some b =>
      simp only [List.getD, hb, Option.getD_some, List.mem_append, List.mem_filterMap] at hv
      rcases hv with hv | ⟨i, hi, hdef⟩
      · exact ⟨⟨id, none⟩, rfl, b, hb, hv⟩
      · obtain ⟨j, hj⟩ := List.getElem?_of_mem hi
        exact ⟨⟨id, some j⟩, rfl, b, hb, i, hj, hdef⟩
  · rintro ⟨site, rfl, b, hb, hmatch⟩
    simp only [List.getD, hb, Option.getD_some, List.mem_append, List.mem_filterMap]
    cases hsome : site.position with
    | none =>
      rw [hsome] at hmatch
      exact .inl hmatch
    | some j =>
      rw [hsome] at hmatch
      obtain ⟨i, hi, hdef⟩ := hmatch
      exact .inr ⟨i, List.mem_of_getElem? hi, hdef⟩

theorem isDefinedAt_iff (hb : f.blocks[id]? = some b) {position : Nat} :
  IsDefinedAt f id position v
    ↔ IsKnown f id v ∨ ∃ k < position, ∃ i, b.instrs[k]? = some i ∧ i.def? = some v
  := by
  have hblock : f.block id = b := by simp [Function.block, hb]
  constructor
  · rintro ⟨site, hsite, ⟨hid, hposition⟩ | ⟨hne, hdominates⟩⟩
    · obtain ⟨b', hb', hmatch⟩ := hsite
      rw [hid, hb] at hb'
      obtain rfl := Option.some.inj hb'
      cases hsome : site.position with
      | none =>
        rw [hsome] at hmatch
        exact .inl (.inl (hblock ▸ hmatch))
      | some k =>
        rw [hsome] at hmatch
        exact .inr ⟨k, hposition k hsome, hmatch⟩
    · exact .inl (.inr ⟨site.block, hne, hdominates, mem_defs_iff.mpr ⟨site, rfl, hsite⟩⟩)
  · rintro ((hparam | ⟨d, hne, hdominates, hdef⟩) | ⟨k, hk, hi⟩)
    · exact ⟨⟨id, none⟩, ⟨b, hb, hblock ▸ hparam⟩, .inl ⟨rfl, by simp⟩⟩
    · obtain ⟨site, rfl, hsite⟩ := mem_defs_iff.mp hdef
      exact ⟨site, hsite, .inr ⟨hne, hdominates⟩⟩
    · exact ⟨⟨id, some k⟩, ⟨b, hb, hi⟩, .inl ⟨rfl, by simpa using hk⟩⟩

/-- Reads are of variables that are defined exactly if the block is scoped. -/
theorem scoped_iff_reads (hb : f.blocks[id]? = some b) :
  Scoped (IsKnown f id) b.instrs b.terminator.uses
    ↔ ∀ v position, (v, position) ∈ Verify.reads b → IsDefinedAt f id position v
  := by
  have hreads : ∀ v position, (v, position) ∈ Verify.reads b ↔
      (∃ i, b.instrs[position]? = some i ∧ v ∈ i.uses)
        ∨ (v ∈ b.terminator.uses ∧ position = b.body.length) := by
    intro v position
    simp only [Verify.reads, List.mem_append, List.mem_flatMap, List.mem_map, Prod.exists,
      List.mk_mem_zipIdx_iff_getElem?, Prod.mk.injEq]
    constructor
    · rintro (⟨i, j, hi, w, hw, rfl, rfl⟩ | ⟨w, hw, rfl, rfl⟩)
      · exact .inl ⟨i, hi, hw⟩
      · exact .inr ⟨hw, rfl⟩
    · rintro (⟨i, hi, hv⟩ | ⟨hv, rfl⟩)
      · exact .inl ⟨i, position, hi, v, hv, rfl, rfl⟩
      · exact .inr ⟨v, hv, rfl, rfl⟩
  have hlength := b.length_instrs
  rw [scoped_iff]
  constructor
  · rintro ⟨hinstrs, hlast⟩ v position hread
    rw [isDefinedAt_iff hb]
    rcases (hreads v position).mp hread with ⟨i, hi, hv⟩ | ⟨hv, rfl⟩
    · exact hinstrs position i hi v hv
    · refine (hlast v hv).imp_right ?_
      rintro ⟨i, hi, hdef⟩
      obtain ⟨k, hk⟩ := List.getElem?_of_mem hi
      obtain ⟨hlt, -⟩ := List.getElem?_eq_some_iff.mp hk
      exact ⟨k, hlength ▸ hlt, i, hk, hdef⟩
  · intro hall
    refine ⟨fun j i hi v hv => ?_, fun v hv => ?_⟩
    · exact (isDefinedAt_iff hb).mp (hall v j ((hreads v j).mpr (.inl ⟨i, hi, hv⟩)))
    · have hdefined := hall v b.body.length ((hreads v _).mpr (.inr ⟨hv, rfl⟩))
      refine ((isDefinedAt_iff hb).mp hdefined).imp_right ?_
      rintro ⟨k, -, i, hi, hdef⟩
      exact ⟨i, List.mem_of_getElem? hi, hdef⟩

theorem Function.IsSsa.scoped (h : f.IsSsa) (hid : id ∈ f.reversePostorder) :
  Scoped (IsKnown f id) (f.block id).instrs (f.block id).terminator.uses
  := (scoped_iff_reads (h.getElem?_block hid)).mpr fun _ _ => h.reads hid (h.getElem?_block hid)

/-! ## Well-formed functions -/

theorem Verify.definitions_eq_ok {earlier : List VarId} {sites : List (VarId × Site)} :
  definitions f earlier sites = .ok ()
    ↔ (sites.map (·.1)).Nodup ∧ ∀ v ∈ sites.map (·.1), v < f.varTypes.length ∧ v ∉ earlier
  := by
  refine ⟨nodup_of_definitions, ?_⟩
  induction sites generalizing earlier with
  | nil => exact fun _ => rfl
  | cons site sites ih =>
    obtain ⟨v, site⟩ := site
    rw [List.map_cons, List.nodup_cons]
    rintro ⟨⟨hnew, hnodup⟩, hall⟩
    obtain ⟨hlt, hearlier⟩ := hall v (by simp)
    rw [definitions, if_neg (Nat.not_le_of_lt hlt), if_neg (by simpa using hearlier)]
    refine ih ⟨hnodup, fun w hw => ?_⟩
    obtain ⟨hlt', hearlier'⟩ := hall w (List.mem_cons_of_mem _ hw)
    refine ⟨hlt', fun hmem => ?_⟩
    rcases List.mem_cons.mp hmem with rfl | hmem
    · exact hnew hw
    · exact hearlier' hmem

theorem Verify.dominance_eq_ok (hnodup : ((allSites f).map (·.1)).Nodup)
    (hb : f.blocks[id]? = some b) :
  dominance f id b = .ok () ↔ (id ∈ f.reversePostorder →
    Scoped (IsKnown f id) b.instrs b.terminator.uses)
  := by
  rw [dominance, scoped_iff_reads hb]
  by_cases hid : id ∈ f.reversePostorder
  · rw [if_pos (by simpa [Function.isReachable] using hid), forM_eq_ok]
    simp only [hid, forall_const, Prod.forall]
    refine forall_congr' fun v => forall_congr' fun position => imp_congr_right fun _ => ?_
    rw [definedBefore_eq_ok]
    constructor
    · rintro ⟨site, hlookup, hwhere⟩
      obtain ⟨before, after, hsites, -⟩ := List.lookup_eq_some_iff.mp hlookup
      have hmem : (v, site) ∈ allSites f := by
        rw [hsites]
        simp
      refine ⟨site, mem_allSites.mp hmem, ?_⟩
      split at hwhere
      · next hblock =>
        refine .inl ⟨hblock, fun j hj => ?_⟩
        rw [hj] at hwhere
        simpa using hwhere
      · next hne => exact .inr ⟨hne, hwhere⟩
    · rintro ⟨site, hsite, hwhere⟩
      refine ⟨site, lookup_eq_some_of_mem hnodup (mem_allSites.mpr hsite), ?_⟩
      split
      · next hblock =>
        rcases hwhere with ⟨-, hposition⟩ | ⟨hne, -⟩
        · cases hsome : site.position with
          | none => rfl
          | some j => simpa using hposition j hsome
        · exact absurd hblock hne
      · next hne => exact (hwhere.resolve_left fun h => hne h.1).2
  · rw [if_neg (by simpa [Function.isReachable] using hid)]
    simp [hid, pure, Except.pure]

/-! ## Definitions -/

/-- No variable is defined twice. -/
theorem nodup_defs_iff :
  (f.blocks.flatMap Block.defs).Nodup
    ↔ (∀ v site site', IsSite f v site → IsSite f v site' → site = site')
      ∧ ∀ b ∈ f.blocks, b.params.Nodup
  := by
  constructor
  · intro hnodup
    refine ⟨fun v site site' hsite hsite' => ?_, fun b hb => ?_⟩
    · rw [← Verify.map_fst_allSites] at hnodup
      have hmem := Verify.mem_allSites.mpr hsite
      have hmem' := Verify.mem_allSites.mpr hsite'
      exact congrArg Prod.snd (List.inj_on_of_nodup_map hnodup hmem hmem' rfl)
    · exact (List.nodup_append.mp ((List.nodup_flatMap.mp hnodup).1 b hb)).1
  · rintro ⟨hunique, hparams⟩
    rw [List.nodup_flatMap]
    constructor
    · intro b hb
      obtain ⟨id, hid⟩ := List.getElem?_of_mem hb
      have hsite : ∀ {j : Nat} {i : Instr} {v : VarId}, b.instrs[j]? = some i → i.def? = some v →
          IsSite f v ⟨id, some j⟩ := fun hi hdef => ⟨b, hid, _, hi, hdef⟩
      refine List.nodup_append.mpr ⟨hparams b hb, ?_, ?_⟩
      · rw [List.Nodup, List.pairwise_filterMap, List.pairwise_iff_getElem]
        rintro j k hj hk hlt v hv w hw rfl
        have hsites := hunique v _ _ (hsite (List.getElem?_eq_getElem hj) hv)
          (hsite (List.getElem?_eq_getElem hk) hw)
        simp only [Site.mk.injEq, Option.some.injEq, true_and] at hsites
        exact Nat.ne_of_lt hlt hsites
      · rintro v hv w hw rfl
        obtain ⟨i, hi, hdef⟩ := List.mem_filterMap.mp hw
        obtain ⟨j, hj⟩ := List.getElem?_of_mem hi
        cases hunique v ⟨id, none⟩ _ ⟨b, hid, hv⟩ (hsite hj hdef)
    · rw [List.pairwise_iff_getElem]
      intro id id' hid hid' hlt v hv hv'
      have hdefs : ∀ {d : BlockId} (hd : d < f.blocks.length), v ∈ (f.blocks[d]).defs →
          ∃ site : Site, site.block = d ∧ IsSite f v site := by
        intro d hd hv
        refine mem_defs_iff.mp ?_
        rwa [show f.block d = f.blocks[d] by simp [Function.block, hd]]
      obtain ⟨site, rfl, hsite⟩ := hdefs hid hv
      obtain ⟨site', rfl, hsite'⟩ := hdefs hid' hv'
      exact Nat.ne_of_lt hlt (congrArg Site.block (hunique v site site' hsite hsite'))

/-- No variable is defined twice if none is in a block, and none in two blocks. -/
theorem nodup_defs_iff_blocks :
  (f.blocks.flatMap Block.defs).Nodup
    ↔ (∀ id, (f.block id).defs.Nodup)
      ∧ ∀ id id' v, v ∈ (f.block id).defs → v ∈ (f.block id').defs → id = id'
  := by
  rw [List.nodup_flatMap]
  constructor
  · rintro ⟨hblock, hdisjoint⟩
    constructor
    · intro id
      by_cases hid : id < f.blocks.length
      · rw [show f.block id = f.blocks[id] by simp [Function.block, hid]]
        exact hblock _ (List.getElem_mem hid)
      · rw [show f.block id = .empty by simp [Function.block, hid]]
        exact List.nodup_nil
    · intro id id' v hv hv'
      have hlt : ∀ {d : BlockId}, v ∈ (f.block d).defs → ∃ hd : d < f.blocks.length,
          v ∈ (f.blocks[d]).defs := by
        intro d hv
        by_cases hd : d < f.blocks.length
        · refine ⟨hd, ?_⟩
          rwa [show f.block d = f.blocks[d] by simp [Function.block, hd]] at hv
        · rw [show f.block d = .empty by simp [Function.block, hd]] at hv
          cases hv
      obtain ⟨hid, hv⟩ := hlt hv
      obtain ⟨hid', hv'⟩ := hlt hv'
      rw [List.pairwise_iff_getElem] at hdisjoint
      rcases Nat.lt_trichotomy id id' with h | h | h
      · exact absurd hv' (hdisjoint id id' hid hid' h hv)
      · exact h
      · exact absurd hv (hdisjoint id' id hid' hid h hv')
  · rintro ⟨hblock, hunique⟩
    constructor
    · intro b hb
      obtain ⟨id, hid⟩ := List.getElem?_of_mem hb
      rw [show b = f.block id by simp [Function.block, hid]]
      exact hblock id
    · rw [List.pairwise_iff_getElem]
      intro id id' hid hid' hlt v hv hv'
      refine Nat.ne_of_lt hlt (hunique id id' v ?_ ?_)
      · rwa [show f.block id = f.blocks[id] by simp [Function.block, hid]]
      · rwa [show f.block id' = f.blocks[id'] by simp [Function.block, hid']]

/-- Definitions of new variables in one block, and less definitions in the others. -/
theorem nodup_defs_of_fresh {g : Function} {m : Nat} (hf : (f.blocks.flatMap Block.defs).Nodup)
    (hold : ∀ d, ∀ v ∈ (f.block d).defs, v < m) {old fresh : List VarId}
    (hself : (g.block id).defs = old ++ fresh) (hsublist : old.Sublist (f.block id).defs)
    (hfresh : fresh.Nodup ∧ ∀ v ∈ fresh, m ≤ v)
    (hother : ∀ d, d ≠ id → (g.block d).defs.Sublist (f.block d).defs) :
  (g.blocks.flatMap Block.defs).Nodup
  := by
  rw [nodup_defs_iff_blocks] at hf ⊢
  have hdefs : ∀ d, ∀ v ∈ (g.block d).defs, v ∈ (f.block d).defs ∨ (d = id ∧ m ≤ v) := by
    intro d v hv
    by_cases hd : d = id
    · subst hd
      rw [hself] at hv
      exact (List.mem_append.mp hv).imp (fun hv => hsublist.subset hv) fun hv => ⟨rfl, hfresh.2 v hv⟩
    · exact .inl ((hother d hd).subset hv)
  constructor
  · intro d
    by_cases hd : d = id
    · subst hd
      rw [hself]
      refine List.nodup_append.mpr ⟨(hf.1 d).sublist hsublist, hfresh.1, ?_⟩
      rintro v hv _ hv' rfl
      exact Nat.not_le_of_lt (hold d v (hsublist.subset hv)) (hfresh.2 v hv')
    · exact (hf.1 d).sublist (hother d hd)
  · intro d d' v hv hv'
    rcases hdefs d v hv with hv | ⟨rfl, hle⟩ <;> rcases hdefs d' v hv' with hv' | ⟨rfl, hle'⟩
    · exact hf.2 d d' v hv hv'
    · exact absurd hle' (Nat.not_le_of_lt (hold d v hv))
    · exact absurd hle (Nat.not_le_of_lt (hold d' v hv'))
    · rfl

/-- What it means that a function is in single assignment form. -/
theorem Function.isSsa_iff :
  f.IsSsa ↔ (∃ b, f.blocks[f.entry]? = some b ∧ b.params = f.params)
    ∧ (f.blocks.flatMap Block.defs).Nodup
    ∧ (∀ (id : BlockId) b target args, f.blocks[id]? = some b → b.terminator = .jump target args →
      target < f.blocks.length ∧ (f.block target).params.length = args.length)
    ∧ (∀ (id : BlockId) b test thenBlock elseBlock, f.blocks[id]? = some b →
      b.terminator = .branch test thenBlock elseBlock →
      ∀ next ∈ [thenBlock, elseBlock], next < f.blocks.length ∧ (f.block next).params = [])
    ∧ ∀ id ∈ f.reversePostorder, ∀ b, f.blocks[id]? = some b →
      Scoped (IsKnown f id) b.instrs b.terminator.uses
  := by
  constructor
  · intro h
    refine ⟨h.entry, nodup_defs_iff.mpr ⟨fun _ _ _ => h.unique, fun b hb => ?_⟩,
      fun _ _ _ _ => h.jump, fun _ _ _ _ _ => h.branch, fun id hid b hb => ?_⟩
    · obtain ⟨id, hid⟩ := List.getElem?_of_mem hb
      exact h.nodup hid
    · exact (scoped_iff_reads hb).mpr fun _ _ => h.reads hid hb
  · rintro ⟨hentry, hnodup, hjump, hbranch, hscoped⟩
    obtain ⟨hunique, hparams⟩ := nodup_defs_iff.mp hnodup
    exact ⟨hentry, fun {_ _ _} => hunique _ _ _, fun hb => hparams _ (List.mem_of_getElem? hb),
      fun hid hb => (scoped_iff_reads hb).mp (hscoped _ hid _ hb) _ _,
      fun {_ _ _ _} => hjump _ _ _ _, fun {_ _ _ _ _} => hbranch _ _ _ _ _⟩

/-- A function is well-formed if it is in single assignment form and its types are right. -/
theorem Function.verify_iff :
  f.verify = .ok () ↔ f.IsSsa ∧ Verify.shape f = .ok ()
    ∧ (∀ v ∈ f.blocks.flatMap Block.defs, v < f.varTypes.length)
    ∧ ∀ b ∈ f.blocks, Verify.block f b = .ok ()
  := by
  constructor
  · intro h
    obtain ⟨hshape, hdefinitions, hblocks, -⟩ := Function.verify_eq_ok.mp h
    rw [Verify.definitions_eq_ok, Verify.map_fst_allSites] at hdefinitions
    refine ⟨Function.isSsa_of_verify h, hshape, fun v hv => (hdefinitions.2 v hv).1, fun b hb => ?_⟩
    obtain ⟨id, hid⟩ := List.getElem?_of_mem hb
    exact hblocks id b hid
  · rintro ⟨hssa, hshape, hlt, hblocks⟩
    obtain ⟨-, hnodup, -, -, hscoped⟩ := Function.isSsa_iff.mp hssa
    rw [← Verify.map_fst_allSites] at hnodup hlt
    refine Function.verify_eq_ok.mpr ⟨hshape, Verify.definitions_eq_ok.mpr ⟨hnodup, fun v hv => ?_⟩,
      fun id b hb => hblocks b (List.mem_of_getElem? hb), fun id b hb => ?_⟩
    · exact ⟨hlt v hv, List.not_mem_nil⟩
    · exact (Verify.dominance_eq_ok hnodup hb).mpr fun hid => hscoped id hid b hb

end

end FormCompiler.Flow
