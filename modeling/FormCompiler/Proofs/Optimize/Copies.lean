import FormCompiler.Optimize.Fold
import FormCompiler.Proofs.Optimize.Sound

/-!
# Variables that stand for others

A variable may be read in place of another one that has the same value, and so may be the variable
that is found by following such replacements from one to the next. This is all that is needed to read
the source of a copy in place of the copy.
-/

namespace FormCompiler.Flow

open Verify (IsSite IsDefinedAt Site)

variable {v : VarId} {replaced : List (VarId × VarId)}

/-! ## Reading other variables -/

theorem lookup_zip_map {params args : List VarId} {rename : VarId → VarId} :
  (params.zip (args.map rename)).lookup v = ((params.zip args).lookup v).map rename
  := by
  induction params generalizing args with
  | nil => rfl
  | cons param params ih =>
    cases args with
    | nil => rfl
    | cons arg args =>
      rw [List.map_cons, List.zip_cons_cons, List.zip_cons_cons, List.lookup_cons, List.lookup_cons]
      cases v == param with
      | true => rfl
      | false => exact ih

@[simp]
theorem Terminator.successors_mapUses (rename : VarId → VarId) (t : Terminator) :
  (t.mapUses rename).successors = t.successors
  := by
  cases t <;> rfl

@[simp]
theorem Terminator.uses_mapUses (rename : VarId → VarId) (t : Terminator) :
  (t.mapUses rename).uses = t.uses.map rename
  := by
  cases t with
  | ret value => cases value <;> rfl
  | jump | branch | unreachable => rfl

section

variable {f : Function} {W : World} {rename : VarId → VarId} {s : State}

/-- Reading other variables with the same values makes no difference to an instruction. -/
theorem Instr.run_mapUses {i : Instr} (h : ∀ v ∈ i.uses, s.vars (rename v) = s.vars v) :
  (i.mapUses rename).run W W.caller f.varType s = i.run W W.caller f.varType s
  := by
  have hact : i.act W W.caller f.varType (s.vars ∘ rename) s.store
      = i.act W W.caller f.varType s.vars s.store := Instr.act_congr h
  unfold Instr.run
  rw [Instr.act_mapUses, Instr.def?_mapUses, hact]

/-- Reading other variables with the same values makes no difference to a terminator. -/
theorem Terminator.run_mapUses {t : Terminator} (h : ∀ v ∈ t.uses, s.vars (rename v) = s.vars v) :
  (t.mapUses rename).run f s = t.run f s
  := by
  cases t with
  | ret value =>
    cases value with
    | none => rfl
    | some v => simp only [Terminator.mapUses, Option.map_some, Terminator.run, h v (by simp [Terminator.uses])]
  | jump target args =>
    have hpass : passArgs (f.block target).params (args.map rename) s.vars
        = passArgs (f.block target).params args s.vars := by
      funext v
      simp only [passArgs, lookup_zip_map]
      cases hlookup : ((f.block target).params.zip args).lookup v with
      | none => rfl
      | some arg => exact h arg (List.of_mem_zip (mem_of_lookup_eq_some hlookup)).2
    simp only [Terminator.mapUses, Terminator.run, hpass]
  | branch test thenBlock elseBlock =>
    simp only [Terminator.mapUses, Terminator.run, h test (by simp [Terminator.uses])]
  | unreachable => rfl

end

/-! ## Following replacements -/

/-- What is kept from one replacement to the next is kept when replacements are followed. -/
theorem Function.follow_induction {P : VarId → Prop} (hstep : ∀ v next, replaced.lookup v = some next → P v → P next)
    (hv : P v) (n : Nat) :
  P (Function.follow replaced n v)
  := by
  induction n generalizing v with
  | zero => exact hv
  | succ n ih =>
    rw [Function.follow]
    cases hlookup : replaced.lookup v with
    | none => exact hv
    | some next =>
      simp only
      split
      · exact hv
      · exact ih (hstep v next hlookup hv)

/--
If each replacement leads to a variable that comes before in some order, then following the replacements
ends at a variable that is not replaced.
-/
theorem Function.lookup_follow_eq_none (before : VarId → VarId → Prop)
    (htrans : ∀ {u v w}, before u v → before v w → before u w) (hirrefl : ∀ v, ¬before v v) {P : VarId → Prop}
    (hstep : ∀ v next, replaced.lookup v = some next → P v → P next ∧ before next v) (hv : P v) :
  replaced.lookup (Function.follow replaced replaced.length v) = none
  := by
  classical
  -- The replaced variables up to `v`, of which each step leaves one behind.
  let earlier (v : VarId) : Finset VarId :=
    (replaced.map (·.1)).toFinset.filter fun u => u = v ∨ before u v
  have hmain : ∀ n v, P v → (earlier v).card ≤ n → replaced.lookup (Function.follow replaced n v) = none := by
    intro n
    induction n with
    | zero =>
      intro v _ hcard
      rw [Function.follow, List.lookup_eq_none_iff]
      intro pair hpair
      simp only [bne_iff_ne, ne_eq]
      rintro rfl
      have hmem : pair.1 ∈ earlier pair.1 :=
        Finset.mem_filter.mpr ⟨List.mem_toFinset.mpr (List.mem_map_of_mem hpair), .inl rfl⟩
      rw [Finset.card_eq_zero.mp (Nat.le_zero.mp hcard)] at hmem
      cases hmem
    | succ n ih =>
      intro v hv hcard
      rw [Function.follow]
      cases hlookup : replaced.lookup v with
      | none => exact hlookup
      | some next =>
        obtain ⟨hnext, hbefore⟩ := hstep v next hlookup hv
        simp only
        rw [if_neg fun heq : next = v => hirrefl v (heq ▸ hbefore)]
        refine ih next hnext (Nat.le_of_lt_succ (lt_of_lt_of_le (Finset.card_lt_card ?_) hcard))
        have hkey : v ∈ earlier v := by
          refine Finset.mem_filter.mpr ⟨List.mem_toFinset.mpr ?_, .inl rfl⟩
          exact List.mem_map.mpr ⟨(v, next), mem_of_lookup_eq_some hlookup, rfl⟩
        refine Finset.ssubset_iff_subset_ne.mpr ⟨fun u hu => ?_, fun heq => ?_⟩
        · obtain ⟨hmem, hcases⟩ := Finset.mem_filter.mp hu
          refine Finset.mem_filter.mpr ⟨hmem, .inr ?_⟩
          rcases hcases with rfl | hu
          · exact hbefore
          · exact htrans hu hbefore
        · rw [← heq] at hkey
          rcases (Finset.mem_filter.mp hkey).2 with rfl | hv
          · exact hirrefl v hbefore
          · exact hirrefl v (htrans hv hbefore)
  refine hmain _ v hv ((Finset.card_filter_le _ _).trans ((List.toFinset_card_le _).trans ?_))
  rw [List.length_map]

theorem Function.block_replaceUses (f : Function) (replaced : List (VarId × VarId)) (id : BlockId) :
  (f.replaceUses replaced).block id
    = (f.block id).mapUses (Function.follow replaced replaced.length)
  := by
  simp only [Function.replaceUses, Function.mapBlocks, Function.block, List.getD_eq_getElem?_getD,
    List.getElem?_map]
  cases f.blocks[id]? with
  | none => rfl
  | some b => rfl

theorem Block.instrs_mapUses (rename : VarId → VarId) (b : Block) :
  (b.mapUses rename).instrs = b.instrs.map (Instr.mapUses rename)
  := by
  simp [Block.mapUses, Block.mapInstrs, Block.instrs]

/-- What a well-formed function says of a variable and of the one that is read in its place. -/
structure StandsFor (f : Function) (v next : VarId) : Prop where
  type : f.varTypes[v]? = f.varTypes[next]?
  defined : ∀ {id j}, id ∈ f.reversePostorder → IsDefinedAt f id j v → IsDefinedAt f id j next

theorem StandsFor.refl (f : Function) (v : VarId) :
  StandsFor f v v
  := ⟨rfl, fun _ hv => hv⟩

theorem StandsFor.trans {f : Function} {u w : VarId} (huv : StandsFor f u v) (hvw : StandsFor f v w) :
  StandsFor f u w
  := ⟨huv.type.trans hvw.type, fun hid hu => hvw.defined hid (huv.defined hid hu)⟩

section

variable {f : Function} {replaced : List (VarId × VarId)}

theorem standsFor_follow (h : ∀ v next, replaced.lookup v = some next → StandsFor f v next) (v : VarId)
    (n : Nat) :
  StandsFor f v (Function.follow replaced n v)
  := Function.follow_induction (fun w next hlookup hw => hw.trans (h w next hlookup)) (.refl f v) n

theorem vars_follow (h : ∀ v next, replaced.lookup v = some next → StandsFor f v next) {id : BlockId}
    {j : Nat} (hid : id ∈ f.reversePostorder) {vars : VarId → Val}
    (hvars : ∀ v next, replaced.lookup v = some next → IsDefinedAt f id j v → vars next = vars v)
    {v : VarId} (hv : IsDefinedAt f id j v) (n : Nat) :
  vars (Function.follow replaced n v) = vars v
  := by
  refine (Function.follow_induction (P := fun w => IsDefinedAt f id j w ∧ vars w = vars v) ?_ ⟨hv, rfl⟩ n).2
  rintro w next hlookup ⟨hdefined, hsame⟩
  exact ⟨(h w next hlookup).defined hid hdefined, (hvars w next hlookup hdefined).trans hsame⟩

theorem CanReplace.mapUses (hf : f.verify = .ok ()) {rename : VarId → VarId}
    (h : ∀ v, StandsFor f v (rename v)) {id : BlockId} {j : Nat} {i : Instr}
    (hi : (f.block id).instrs[j]? = some i) :
  CanReplace f id j i (i.mapUses rename)
  where
  defines := i.def?_mapUses rename
  reads hid v hv := by
    rw [Instr.uses_mapUses] at hv
    obtain ⟨w, hw, rfl⟩ := List.mem_map.mp hv
    exact (h w).defined hid ((CanReplace.refl hf hi).reads hid w hw)
  check := by
    have hkeeps := Verify.keeps_instr_rename (f := f) (g := f) rfl (i := i) rename (fun v => v)
      (fun v _ => Verify.keepsType_iff.mpr fun t ht => (h v).type ▸ ht)
      fun v _ => Verify.keepsType_iff.mpr fun _ ht => ht
    exact (Instr.mapDef_id (i.mapUses rename)) ▸ hkeeps () (Verify.instr_of_mem hf (List.mem_of_getElem? hi))

theorem CanEnd.mapUses (hf : f.verify = .ok ()) {rename : VarId → VarId}
    (h : ∀ v, StandsFor f v (rename v)) (id : BlockId) :
  CanEnd f id ((f.block id).terminator.mapUses rename)
  where
  edges next hnext := by
    rw [Terminator.successors_mapUses] at hnext
    exact hnext
  reads hid v hv := by
    rw [Terminator.uses_mapUses] at hv
    obtain ⟨w, hw, rfl⟩ := List.mem_map.mp hv
    exact (h w).defined hid ((CanEnd.refl hf id).reads hid w hw)
  check hid := by
    refine Verify.keeps_terminator_rename (f := f) (g := f) rfl rfl (fun _ => rfl)
      (fun v => Verify.keepsType_iff.mpr fun _ ht => ht) rename
      (fun v _ => Verify.keepsType_iff.mpr fun t ht => (h v).type ▸ ht) () ?_
    exact Verify.terminator_of_lt hf hid

end

/-! ## Copies -/

namespace Fold

variable {f : Function}

theorem exists_of_copiesOf {source : VarId} (h : (copiesOf f).lookup v = some source) :
  ∃ b ∈ f.blocks, .set v (.copy source) ∈ b.instrs
  := by
  obtain ⟨b, hb, hmem⟩ := List.mem_flatMap.mp (mem_of_lookup_eq_some h)
  obtain ⟨i, hi, hsome⟩ := List.mem_filterMap.mp hmem
  split at hsome
  · obtain ⟨rfl, rfl⟩ := Prod.mk.inj (Option.some.inj hsome)
    exact ⟨b, hb, hi⟩
  · cases hsome

theorem standsFor_copy (hf : f.verify = .ok ()) {source : VarId} (h : (copiesOf f).lookup v = some source) :
  StandsFor f v source
  := by
  have hssa := Function.isSsa_of_verify hf
  have hset := exists_of_copiesOf h
  constructor
  · obtain ⟨b, hb, hmem⟩ := hset
    obtain ⟨id, hid⟩ := List.getElem?_of_mem hb
    obtain ⟨t, hv, hsource⟩ := Verify.same_eq_ok.mp (Verify.instr_eq_ok hf hid hmem)
    rw [hv, hsource]
  · intro id j hid hv
    obtain ⟨site, hsite⟩ := hv.exists_site
    obtain ⟨b, k, hb, hk, hget⟩ := hssa.getElem?_of_set hsite hset
    refine hssa.isDefinedAt_trans hv hsite ?_
    rw [hk, Option.getD_some]
    have hreached := mem_reversePostorder_of_isDefinedAt hssa hid hv hsite
    exact hssa.isDefinedAt_of_mem_uses hreached hb hget (by simp [Instr.uses, Value.uses])

theorem isSound_copies :
  copies.IsSound
  := by
  intro f hf
  have hssa := Function.isSsa_of_verify hf
  have hstep : ∀ v next, (copiesOf f).lookup v = some next → StandsFor f v next := fun v next =>
    standsFor_copy hf
  have hstands : ∀ v, StandsFor f v (Function.follow (copiesOf f) (copiesOf f).length v) := fun v =>
    standsFor_follow hstep v _
  have hblock : ∀ id, (copies f).2.block id
      = (f.block id).mapUses (Function.follow (copiesOf f) (copiesOf f).length) :=
    f.block_replaceUses (copiesOf f)
  have hframe : SameFrame f (copies f).2 :=
    ⟨rfl, rfl, rfl, rfl, rfl, rfl, by simp [copies, Function.replaceUses, Function.mapBlocks],
      fun id => by rw [hblock]; rfl⟩
  have hvars : ∀ {W id j vars}, id ∈ f.reversePostorder → HoldAt f (SetHolds f W) id j vars → ∀ v,
      IsDefinedAt f id j v → vars (Function.follow (copiesOf f) (copiesOf f).length v) = vars v := by
    intro W id j vars hid hholds v hv
    refine vars_follow hstep hid (fun w next hlookup hw => ?_) hv _
    simpa [Value.eval] using hholds w hw _ (exists_of_copiesOf hlookup)
  refine hframe.sound hf (fun _ line => line.1.mapUses _) (fun id => ?_)
    (fun id j i hi => .mapUses hf hstands hi) (fun id => ?_)
    fun W hW => ⟨_, (equations_set hssa W W.caller).invariant hssa,
      fun {id j i s} hid hi hholds => ?_, fun {id s} hid hholds => ?_⟩
  · rw [hblock, Block.instrs_mapUses]
    conv_lhs => rw [← List.zipIdx_map_fst 0 (f.block id).instrs, List.map_map]
    rfl
  · rw [hblock]
    exact .mapUses hf hstands id
  · refine Instr.run_mapUses fun v hv => hvars hid hholds v ?_
    exact hssa.isDefinedAt_of_mem_uses hid (hssa.getElem?_block hid) hi hv
  · rw [hblock]
    refine Terminator.run_mapUses fun v hv => hvars hid hholds v ?_
    rw [Block.length_instrs]
    exact hssa.isDefinedAt_of_mem_terminator hid (hssa.getElem?_block hid) hv

end Fold

end FormCompiler.Flow
