import FormCompiler.Proofs.Flow.Visited
import FormCompiler.Proofs.Optimize.Copies

/-!
# Parameters that stand for other variables

A parameter of a block that all jumps pass one and the same variable for, apart from itself, always has
the value of this variable (`equations_redundant`): the variable is defined on every path to the block,
and when the block is entered again the variable has not changed unless the parameter has.
-/

namespace FormCompiler.Flow

open Verify (IsSite IsDefinedAt Site)

namespace Fold

variable {xs ys args : List VarId}

/-! ## Positions -/

/-- What `without` keeps, if positions are counted from some number on. -/
theorem without_cons (positions : List Nat) (v : VarId) (vars : List VarId) (k : Nat) :
  (((v :: vars).zipIdx k).filter fun x => !positions.contains x.2).map (·.1)
    = (if k ∈ positions then [] else [v])
      ++ ((vars.zipIdx (k + 1)).filter fun x => !positions.contains x.2).map (·.1)
  := by
  rw [List.zipIdx_cons, List.filter_cons]
  by_cases hk : k ∈ positions <;> simp [hk]

theorem without_sublist (positions : List Nat) (vars : List VarId) :
  (without positions vars).Sublist vars
  := by
  conv_rhs => rw [← List.zipIdx_map_fst 0 vars]
  exact List.filter_sublist.map _

theorem mem_zip_without (positions : List Nat) (hlength : xs.length = ys.length) {x y : VarId} :
  (x, y) ∈ (without positions xs).zip (without positions ys)
    ↔ ∃ k : Nat, xs[k]? = some x ∧ ys[k]? = some y ∧ k ∉ positions
  := by
  have hgeneral : ∀ k, (x, y) ∈ (((xs.zipIdx k).filter fun x => !positions.contains x.2).map (·.1)).zip
      (((ys.zipIdx k).filter fun x => !positions.contains x.2).map (·.1))
        ↔ ∃ j : Nat, xs[j]? = some x ∧ ys[j]? = some y ∧ k + j ∉ positions := by
    induction xs generalizing ys with
    | nil => simp
    | cons x' xs ih =>
      cases ys with
      | nil => cases hlength
      | cons y' ys =>
        intro k
        have hrest := ih (Nat.succ.inj hlength) (k + 1)
        rw [without_cons, without_cons]
        by_cases hk : k ∈ positions
        · simp only [hk, if_true, List.nil_append, hrest]
          constructor
          · rintro ⟨j, hx, hy, hj⟩
            exact ⟨j + 1, hx, hy, by rwa [show k + (j + 1) = k + 1 + j by omega]⟩
          · rintro ⟨j, hx, hy, hj⟩
            cases j with
            | zero => exact absurd hk hj
            | succ j => exact ⟨j, hx, hy, by rwa [show k + 1 + j = k + (j + 1) by omega]⟩
        · simp only [hk, if_false, List.cons_append, List.nil_append, List.zip_cons_cons, List.mem_cons,
            Prod.mk.injEq, hrest]
          constructor
          · rintro (⟨rfl, rfl⟩ | ⟨j, hx, hy, hj⟩)
            · exact ⟨0, rfl, rfl, hk⟩
            · exact ⟨j + 1, hx, hy, by rwa [show k + (j + 1) = k + 1 + j by omega]⟩
          · rintro ⟨j, hx, hy, hj⟩
            cases j with
            | zero => exact .inl ⟨(Option.some.inj hx).symm, (Option.some.inj hy).symm⟩
            | succ j => exact .inr ⟨j, hx, hy, by rwa [show k + 1 + j = k + (j + 1) by omega]⟩
  simpa [without] using hgeneral 0

theorem length_without {positions : List Nat} (hlength : xs.length = ys.length) :
  (without positions xs).length = (without positions ys).length
  := by
  have hgeneral : ∀ k, (((xs.zipIdx k).filter fun x => !positions.contains x.2).map (·.1)).length
      = (((ys.zipIdx k).filter fun x => !positions.contains x.2).map (·.1)).length := by
    induction xs generalizing ys with
    | nil =>
      cases ys with
      | nil => exact fun _ => rfl
      | cons => cases hlength
    | cons x xs ih =>
      cases ys with
      | nil => cases hlength
      | cons y ys =>
        intro k
        rw [without_cons, without_cons, List.length_append, List.length_append,
          ih (Nat.succ.inj hlength) (k + 1)]
        split <;> rfl
  exact hgeneral 0

theorem mem_without {positions : List Nat} {x : VarId} :
  x ∈ without positions xs ↔ ∃ k : Nat, xs[k]? = some x ∧ k ∉ positions
  := by
  have hzip := mem_zip_without positions (rfl : xs.length = xs.length) (x := x) (y := x)
  constructor
  · intro hx
    obtain ⟨k, hk⟩ := List.getElem?_of_mem hx
    have hmem : (x, x) ∈ (without positions xs).zip (without positions xs) := by
      refine List.mem_of_getElem? (i := k) ?_
      rw [List.getElem?_zip_eq_some]
      exact ⟨hk, hk⟩
    obtain ⟨j, hj, -, hnot⟩ := hzip.mp hmem
    exact ⟨j, hj, hnot⟩
  · rintro ⟨k, hk, hnot⟩
    exact (List.of_mem_zip (hzip.mpr ⟨k, hk, hk, hnot⟩)).1

/-! ## Redundant parameters -/

/-- A parameter of a block stands for another variable. -/
structure IsRedundant (f : Function) (id : BlockId) (position : Nat) (param source : VarId) : Prop where
  entry : id ≠ f.entry
  isParam : (f.block id).params[position]? = some param
  args : ∀ args ∈ incoming f id, ∀ v, args[position]? = some v → v = param ∨ v = source
  passed : ∃ args ∈ incoming f id, args[position]? = some source
  outside : source ∉ (f.block id).defs

variable {f : Function} {id : BlockId} {position : Nat} {param source v : VarId}

theorem mem_incoming :
  args ∈ incoming f id ↔ ∃ b ∈ f.blocks, b.terminator = .jump id args
  := by
  simp only [incoming, List.mem_filterMap]
  refine exists_congr fun b => and_congr_right fun _ => ?_
  cases b.terminator with
  | jump target passed =>
    simp only [Terminator.jump.injEq]
    split
    · next heq => simp [heq]
    · next hne => simp [hne]
  | ret | branch | unreachable => simp

theorem isRedundant_of_mem (h : (position, param, source) ∈ redundantParams f id) :
  IsRedundant f id position param source
  := by
  unfold redundantParams at h
  simp only at h
  split at h
  · cases h
  · next hentry =>
    obtain ⟨⟨p, k⟩, hline, hsome⟩ := List.mem_filterMap.mp h
    obtain ⟨s, hs, hpair⟩ := Option.map_eq_some_iff.mp hsome
    simp only [Prod.mk.injEq] at hpair
    obtain ⟨rfl, rfl, rfl⟩ := hpair
    unfold onlySource? at hs
    split at hs
    · cases hs
    · next first rest hfilter =>
      split at hs
      · next hall =>
        obtain rfl := Option.some.inj hs
        simp only [Bool.and_eq_true, List.all_eq_true, beq_iff_eq, Bool.not_eq_true', List.contains_eq_mem,
          decide_eq_false_iff_not] at hall
        have hmem : ∀ {v}, v ∈ first :: rest ↔ (∃ args ∈ incoming f id, args[k]? = some v) ∧ v ≠ p := by
          intro v
          rw [← hfilter]
          simp [List.mem_filter, List.mem_filterMap]
        refine ⟨hentry, List.mk_mem_zipIdx_iff_getElem?.mp hline, fun args hargs v hv => ?_, ?_, hall.2⟩
        · refine or_iff_not_imp_left.mpr fun hne => ?_
          rcases List.mem_cons.mp (hmem.mpr ⟨⟨args, hargs, hv⟩, hne⟩) with rfl | hrest
          · rfl
          · exact hall.1 v hrest
        · exact (hmem.mp (by simp)).1
      · cases hs

namespace IsRedundant

theorem isSite (h : IsRedundant f id position param source) :
  IsSite f param ⟨id, none⟩
  := by
  have hmem := List.mem_of_getElem? h.isParam
  exact ⟨f.block id, Function.getElem?_of_mem_defs (List.mem_append_left _ hmem), hmem⟩

/-- Control comes to the block by jumps only. -/
theorem exists_jump (h : IsRedundant f id position param source) (hf : f.IsSsa) {q : BlockId}
    (hq : q ∈ f.reversePostorder) (hnext : id ∈ f.successors q) :
  ∃ args v, (f.block q).terminator = .jump id args ∧ args ∈ incoming f id ∧ args[position]? = some v
  := by
  have hblock := hf.getElem?_block hq
  have hmem := List.mem_of_getElem? h.isParam
  cases hterminator : (f.block q).terminator with
  | ret | unreachable => simp [Function.successors, hterminator, Terminator.successors] at hnext
  | branch test thenBlock elseBlock =>
    rw [Function.successors, hterminator] at hnext
    rw [(hf.branch hblock hterminator id hnext).2] at hmem
    cases hmem
  | jump target args =>
    obtain rfl : id = target := by
      simpa [Function.successors, hterminator, Terminator.successors] using hnext
    have hlength := (hf.jump hblock hterminator).2
    have hlt : position < args.length := hlength ▸ (List.getElem?_eq_some_iff.mp h.isParam).1
    exact ⟨args, args[position], rfl, mem_incoming.mpr ⟨_, List.mem_of_getElem? hblock, hterminator⟩,
      List.getElem?_eq_getElem hlt⟩

/-- Where control comes to the block for the first time, the source is passed. -/
theorem isDefinedAt_before (h : IsRedundant f id position param source) (hf : f.IsSsa) {q : BlockId}
    (hq : f.Reaches [id] q) (hnext : id ∈ f.successors q) :
  IsDefinedAt f q (f.block q).body.length source
  := by
  have hreached : q ∈ f.reversePostorder := Function.mem_reachedAvoiding.mpr (hq.mono (by simp))
  obtain ⟨args, v, hterminator, hargs, hv⟩ := h.exists_jump hf hreached hnext
  have hdefined : IsDefinedAt f q (f.block q).body.length v := by
    refine hf.isDefinedAt_of_mem_terminator hreached (hf.getElem?_block hreached) ?_
    rw [hterminator]
    exact List.mem_of_getElem? hv
  rcases h.args args hargs v hv with rfl | rfl
  · -- The parameter itself cannot be passed, as the block has not been entered before.
    obtain ⟨site, hsite, hwhere⟩ := hdefined
    obtain rfl := hf.unique hsite h.isSite
    rcases hwhere with ⟨rfl, -⟩ | ⟨hne, hdominates⟩
    · exact absurd (by simp) (Function.not_mem_of_reaches hq)
    · exact absurd hq ((Function.dominates_iff.mp hdominates).resolve_left hne).2
  · exact hdefined

/-- The source is defined in a block that is on every path. -/
theorem exists_dominates (h : IsRedundant f id position param source) (hf : f.IsSsa)
    (hid : id ∈ f.reversePostorder) :
  ∃ site, IsSite f source site ∧ site.block ≠ id ∧ f.dominates site.block id = true
  := by
  obtain ⟨q, hq, hnext⟩ := Function.exists_reaches_before (Function.mem_reachedAvoiding.mp hid) h.entry
  obtain ⟨site, hsite, -⟩ := h.isDefinedAt_before hf hq hnext
  refine ⟨site, hsite, fun heq => h.outside (mem_defs_iff.mpr ⟨site, heq, hsite⟩), ?_⟩
  refine Function.dominates_iff.mpr (.inr ⟨hid, fun hreaches => ?_⟩)
  obtain ⟨q, hq, hnext⟩ := Function.exists_reaches_before hreaches h.entry
  obtain ⟨site', hsite', hwhere⟩ := h.isDefinedAt_before hf (hq.mono (by simp)) hnext
  obtain rfl := hf.unique hsite' hsite
  rcases hwhere with ⟨rfl, -⟩ | ⟨hne, hdominates⟩
  · exact absurd (by simp) (Function.not_mem_of_reaches hq)
  · exact ((Function.dominates_iff.mp hdominates).resolve_left hne).2 (hq.mono (by simp))

theorem isDefinedAt_source (h : IsRedundant f id position param source) (hf : f.IsSsa)
    (hid : id ∈ f.reversePostorder) :
  IsDefinedAt f id 0 source
  := by
  obtain ⟨site, hsite, hwhere⟩ := h.exists_dominates hf hid
  exact ⟨site, hsite, .inr hwhere⟩

theorem standsFor (h : IsRedundant f id position param source) (hf : f.verify = .ok ()) :
  StandsFor f param source
  := by
  have hssa := Function.isSsa_of_verify hf
  constructor
  · obtain ⟨args, hargs, hv⟩ := h.passed
    obtain ⟨b, hb, hterminator⟩ := mem_incoming.mp hargs
    obtain ⟨q, hq⟩ := List.getElem?_of_mem hb
    have hcheck := Verify.terminator_eq_ok hf hq
    rw [hterminator] at hcheck
    have hpair : (source, param) ∈ args.zip (f.block id).params :=
      List.mem_of_getElem? (List.getElem?_zip_eq_some.mpr ⟨hv, h.isParam⟩)
    obtain ⟨t, hsource, hparam⟩ := (Verify.jump_eq_ok.mp hcheck).2.2 _ hpair
    exact hparam.trans hsource.symm
  · intro d j hd hv
    have hreached := mem_reversePostorder_of_isDefinedAt hssa hd hv h.isSite
    exact hssa.isDefinedAt_trans hv h.isSite (h.isDefinedAt_source hssa hreached)

end IsRedundant

/-! ## Equations -/

/-- A redundant parameter has the value of its source. -/
theorem equations_redundant (hf : f.IsSsa) (W : World) (calls : Caller) :
  Equations f W calls
    (fun v vars => ∀ id position source, IsRedundant f id position v source → vars source = vars v)
    (fun v u => ∃ id position, IsRedundant f id position v u)
  := by
  constructor
  · intro v vars vars' hv hdeps h id position source hredundant
    rw [← hv, ← hdeps source ⟨id, position, hredundant⟩]
    exact h id position source hredundant
  · rintro v u site hsite hreached ⟨id, position, hredundant⟩
    obtain rfl := hf.unique hsite hredundant.isSite
    exact hredundant.isDefinedAt_source hf hreached
  · intro v hv vars id position source hredundant
    obtain ⟨b, hb, hparams⟩ := hf.entry
    have hsite : IsSite f v ⟨f.entry, none⟩ := ⟨b, hb, by rwa [hparams]⟩
    exact absurd (congrArg Site.block (hf.unique hredundant.isSite hsite)) hredundant.entry
  · intro d b v j i s s' hd hb hi hdef hrun id position source hredundant
    have hsite : IsSite f v ⟨d, some j⟩ := ⟨b, hb, i, hi, hdef⟩
    cases hf.unique hredundant.isSite hsite
  · intro d b v target args vars hd hb hterminator hparam hholds id position source hredundant
    have hlt := (hf.jump hb hterminator).1
    have hsite : IsSite f v ⟨target, none⟩ := ⟨f.block target, by simp [Function.block, hlt], hparam⟩
    obtain rfl : id = target := congrArg Site.block (hf.unique hredundant.isSite hsite)
    have hargs : args ∈ incoming f id := mem_incoming.mpr ⟨b, List.mem_of_getElem? hb, hterminator⟩
    have hlength := (hf.jump hb hterminator).2
    have hposition : position < args.length := hlength ▸ (List.getElem?_eq_some_iff.mp hredundant.isParam).1
    have harg := List.getElem?_eq_getElem hposition
    have hsource : source ∉ (f.block id).params := fun hmem =>
      hredundant.outside (List.mem_append_left _ hmem)
    have hnodup := hf.nodup (show f.blocks[id]? = some (f.block id) by simp [Function.block, hlt])
    rw [passArgs_of_not_mem hsource]
    simp only [passArgs, lookup_zip_of_getElem? hnodup hredundant.isParam harg]
    rcases hredundant.args args hargs _ harg with heq | heq
    · rw [heq]
      refine hholds v ?_ id position source hredundant
      refine hf.isDefinedAt_of_mem_terminator hd hb ?_
      rw [hterminator, ← heq]
      exact List.getElem_mem hposition
    · rw [heq]

/-! ## The function without redundant parameters -/

/-- The positions of parameters that are dropped. -/
def dropped (f : Function) (id : BlockId) : List Nat := (redundantParams f id).map (·.1)

/-- The parameters that are dropped, with what they stand for. -/
def replacedParams (f : Function) : List (VarId × VarId) :=
  ((List.range f.blocks.length).map (redundantParams f)).flatten.map (·.2)

/-- The variable that is read in place of another one. -/
def standsFor (f : Function) (v : VarId) : VarId :=
  Function.follow (replacedParams f) (replacedParams f).length v

/-- A parameter that is dropped. -/
def IsDropped (f : Function) (v : VarId) : Prop := ∃ source, (replacedParams f).lookup v = some source

/-- The terminator without arguments for parameters that are dropped. -/
def dropArgs (f : Function) : Terminator → Terminator
  | .jump target args => .jump target (without (dropped f target) args)
  | other => other

theorem redundantParams_of_le (h : f.blocks.length ≤ id) :
  redundantParams f id = []
  := by
  unfold redundantParams
  simp only
  split
  · rfl
  · simp [Function.block, Nat.not_lt_of_le h, Block.empty]

theorem getD_redundantParams (f : Function) (id : BlockId) :
  ((List.range f.blocks.length).map (redundantParams f)).getD id [] = redundantParams f id
  := by
  rw [List.getD_eq_getElem?_getD, List.getElem?_map]
  by_cases hid : id < f.blocks.length
  · simp [hid]
  · rw [redundantParams_of_le (Nat.le_of_not_lt hid)]
    simp [hid]

theorem block_blockParams (f : Function) (id : BlockId) :
  (blockParams f).2.block id
    = Block.mapUses (standsFor f)
      { f.block id with
        params := without (dropped f id) (f.block id).params
        terminator := dropArgs f (f.block id).terminator }
  := by
  have hpositions : ∀ d, (((List.range f.blocks.length).map (redundantParams f)).getD d []).map (·.1)
      = dropped f d := fun d => by rw [getD_redundantParams, dropped]
  refine (Function.block_replaceUses _ _ id).trans ?_
  refine congrArg (Block.mapUses (standsFor f)) ?_
  simp only [Function.block, List.getD_eq_getElem?_getD, List.getElem?_map, List.getElem?_zipIdx]
  cases f.blocks[id]? with
  | none => rfl
  | some b =>
    simp only [List.getD_eq_getElem?_getD, List.getElem?_map] at hpositions
    simp only [Option.map_some, Option.getD_some, hpositions, Nat.zero_add]
    rfl

theorem exists_of_lookup_replacedParams (h : (replacedParams f).lookup v = some source) :
  ∃ id position, (position, v, source) ∈ redundantParams f id
  := by
  obtain ⟨⟨position, param, s⟩, hmem, hpair⟩ := List.mem_map.mp (mem_of_lookup_eq_some h)
  obtain ⟨rfl, rfl⟩ := Prod.mk.inj hpair
  obtain ⟨params, hparams, hmem⟩ := List.mem_flatten.mp hmem
  obtain ⟨id, -, rfl⟩ := List.mem_map.mp hparams
  exact ⟨id, position, hmem⟩

/-- Exactly the parameters at positions that are dropped are dropped. -/
theorem isDropped_of_mem (h : (f.block id).params[position]? = some v) (hmem : position ∈ dropped f id) :
  IsDropped f v
  := by
  obtain ⟨⟨_, param, source⟩, hredundant, rfl⟩ := List.mem_map.mp hmem
  obtain rfl := Option.some.inj (h.symm.trans (isRedundant_of_mem hredundant).isParam)
  have hlt : id < f.blocks.length := by
    by_contra hge
    rw [redundantParams_of_le (Nat.le_of_not_lt hge)] at hredundant
    cases hredundant
  have hkey : (v, source) ∈ replacedParams f := by
    refine List.mem_map.mpr ⟨_, List.mem_flatten.mpr ⟨_, List.mem_map.mpr ⟨id, ?_, rfl⟩, hredundant⟩, rfl⟩
    exact List.mem_range.mpr hlt
  cases hlookup : (replacedParams f).lookup v with
  | some other => exact ⟨other, hlookup⟩
  | none => simpa using List.lookup_eq_none_iff.mp hlookup _ hkey

theorem standsFor_replacedParams (hf : f.verify = .ok ()) {next : VarId}
    (h : (replacedParams f).lookup v = some next) :
  StandsFor f v next
  := by
  obtain ⟨id, position, hmem⟩ := exists_of_lookup_replacedParams h
  exact (isRedundant_of_mem hmem).standsFor hf

/-- What is read in place of a variable that is defined is no parameter that stands for another one. -/
theorem lookup_follow_redundant (hf : f.IsSsa) {replaced : List (VarId × VarId)}
    (hreplaced : ∀ v source, replaced.lookup v = some source → ∃ id position, IsRedundant f id position v source)
    (hid : id ∈ f.reversePostorder) {j : Nat} (hv : IsDefinedAt f id j v) :
  replaced.lookup (Function.follow replaced replaced.length v) = none
  := by
  refine Function.lookup_follow_eq_none
    (fun u v => ∃ su sv : Site, IsSite f u su ∧ IsSite f v sv ∧ su.block ≠ sv.block
      ∧ f.dominates su.block sv.block = true) ?_ ?_ (P := fun w => IsDefinedAt f id j w) ?_ hv
  · rintro u v w ⟨su, sv, hu, hv, hne, huv⟩ ⟨sv', sw, hv', hw, hne', hvw⟩
    obtain rfl := hf.unique hv hv'
    refine ⟨su, sw, hu, hw, fun heq => ?_, Function.dominates_trans huv hvw⟩
    exact hne' (Function.dominates_antisymm hvw (heq ▸ huv))
  · rintro v ⟨s, s', hs, hs', hne, -⟩
    exact hne (congrArg Site.block (hf.unique hs hs'))
  · intro v next hlookup hv
    obtain ⟨d, position, hredundant⟩ := hreplaced v next hlookup
    have hreached := mem_reversePostorder_of_isDefinedAt hf hid hv hredundant.isSite
    obtain ⟨site, hsite, hne, hdominates⟩ := hredundant.exists_dominates hf hreached
    refine ⟨hf.isDefinedAt_trans hv hredundant.isSite (hredundant.isDefinedAt_source hf hreached), ?_⟩
    exact ⟨site, ⟨d, none⟩, hsite, hredundant.isSite, hne, hdominates⟩

theorem isRedundant_of_lookup (h : (replacedParams f).lookup v = some source) :
  ∃ id position, IsRedundant f id position v source
  := by
  obtain ⟨id, position, hmem⟩ := exists_of_lookup_replacedParams h
  exact ⟨id, position, isRedundant_of_mem hmem⟩

/-- What is read in place of a variable that is defined is not dropped. -/
theorem not_isDropped_standsFor (hf : f.verify = .ok ()) (hid : id ∈ f.reversePostorder) {j : Nat}
    (hv : IsDefinedAt f id j v) :
  ¬IsDropped f (standsFor f v)
  := by
  rintro ⟨source, hsource⟩
  have hnone := lookup_follow_redundant (Function.isSsa_of_verify hf)
    (fun v source h => isRedundant_of_lookup h) hid hv
  rw [standsFor, hnone] at hsource
  cases hsource

theorem instrs_blockParams (f : Function) (id : BlockId) :
  ((blockParams f).2.block id).instrs
    = (f.block id).instrs.zipIdx.flatMap fun line => [line.1.mapUses (standsFor f)]
  := by
  rw [block_blockParams, Block.instrs_mapUses, ← List.map_eq_flatMap]
  conv_lhs => rw [show Block.instrs { f.block id with
    params := without (dropped f id) (f.block id).params
    terminator := dropArgs f (f.block id).terminator } = (f.block id).instrs from rfl,
    ← List.zipIdx_map_fst 0 (f.block id).instrs, List.map_map]
  rfl

theorem params_blockParams (f : Function) (id : BlockId) :
  ((blockParams f).2.block id).params = without (dropped f id) (f.block id).params
  := by
  rw [block_blockParams]
  rfl

theorem terminator_blockParams (f : Function) (id : BlockId) :
  ((blockParams f).2.block id).terminator = (dropArgs f (f.block id).terminator).mapUses (standsFor f)
  := by
  rw [block_blockParams]
  rfl

theorem length_blockParams (f : Function) :
  (blockParams f).2.blocks.length = f.blocks.length
  := by
  simp [blockParams, Function.replaceUses, Function.mapBlocks]

theorem without_dropped_entry (f : Function) (vars : List VarId) :
  without (dropped f f.entry) vars = vars
  := by
  have hnone : dropped f f.entry = [] := by simp [dropped, redundantParams]
  rw [hnone]
  simp [without]

theorem successors_dropArgs (f : Function) (t : Terminator) :
  (dropArgs f t).successors = t.successors
  := by
  cases t <;> rfl

theorem uses_dropArgs_subset (f : Function) (t : Terminator) :
  (dropArgs f t).uses ⊆ t.uses
  := by
  cases t with
  | jump target args => exact (without_sublist _ _).subset
  | ret | branch | unreachable => exact List.Subset.refl _

theorem defs_blockParams_sublist (f : Function) (id : BlockId) :
  (((blockParams f).2.block id).defs).Sublist (f.block id).defs
  := by
  have hinstrs : ((blockParams f).2.block id).instrs.filterMap Instr.def?
      = (f.block id).instrs.filterMap Instr.def? := by
    rw [instrs_blockParams, ← List.map_eq_flatMap, List.filterMap_map]
    conv_rhs => rw [← List.zipIdx_map_fst 0 (f.block id).instrs, List.filterMap_map]
    refine List.filterMap_congr fun line _ => ?_
    simp
  rw [Block.defs, Block.defs, hinstrs, params_blockParams]
  exact (without_sublist _ _).append (List.Sublist.refl _)

theorem replaces_blockParams (hf : f.verify = .ok ()) :
  Replaces f (blockParams f).2 (IsDropped f) fun _ line => [line.1.mapUses (standsFor f)]
  := by
  have hssa := Function.isSsa_of_verify hf
  obtain ⟨⟨entry, hentry, hparams⟩, hnodup, -⟩ := Function.isSsa_iff.mp hssa
  have hstands : ∀ v, StandsFor f v (standsFor f v) := fun v =>
    standsFor_follow (fun w next => standsFor_replacedParams hf) v _
  have hget : ∀ {id : BlockId} {b}, (blockParams f).2.blocks[id]? = some b →
      f.blocks[id]? = some (f.block id) ∧ b = (blockParams f).2.block id := by
    intro id b hb
    have hlt : id < f.blocks.length :=
      length_blockParams f ▸ (List.getElem?_eq_some_iff.mp hb).1
    exact ⟨by simp [Function.block, hlt], by simp [Function.block, hb]⟩
  constructor
  · rfl
  · have hlt : f.entry < (blockParams f).2.blocks.length :=
      (length_blockParams f).symm ▸ (List.getElem?_eq_some_iff.mp hentry).1
    refine ⟨(blockParams f).2.block f.entry, ?_, ?_⟩
    · change (blockParams f).2.blocks[f.entry]? = _
      simp [Function.block, hlt]
    · rw [params_blockParams, without_dropped_entry]
      exact (show (f.block f.entry).params = f.params by simpa [Function.block, hentry] using hparams)
  · intro id next hnext
    rw [Function.successors, terminator_blockParams, Terminator.successors_mapUses,
      successors_dropArgs] at hnext
    exact hnext
  · exact instrs_blockParams f
  · rw [nodup_defs_iff_blocks] at hnodup ⊢
    exact ⟨fun id => (hnodup.1 id).sublist (defs_blockParams_sublist f id), fun id id' v hv hv' =>
      hnodup.2 id id' v ((defs_blockParams_sublist f id).subset hv)
        ((defs_blockParams_sublist f id').subset hv')⟩
  · intro id b target args hb hterminator
    obtain ⟨hold, rfl⟩ := hget hb
    rw [terminator_blockParams] at hterminator
    rw [length_blockParams, params_blockParams]
    cases hlast : (f.block id).terminator with
    | jump target' args' =>
      rw [hlast] at hterminator
      cases hterminator
      obtain ⟨hlt, hlength⟩ := hssa.jump hold hlast
      exact ⟨hlt, by rw [List.length_map, length_without hlength]⟩
    | ret | branch | unreachable =>
      rw [hlast] at hterminator
      cases hterminator
  · intro id b test thenBlock elseBlock hb hterminator next hnext
    obtain ⟨hold, rfl⟩ := hget hb
    rw [terminator_blockParams] at hterminator
    rw [length_blockParams, params_blockParams]
    cases hlast : (f.block id).terminator with
    | branch test' thenBlock' elseBlock' =>
      rw [hlast] at hterminator
      cases hterminator
      obtain ⟨hlt, hparams⟩ := hssa.branch hold hlast next hnext
      exact ⟨hlt, by rw [hparams]; rfl⟩
    | ret | jump | unreachable =>
      rw [hlast] at hterminator
      cases hterminator
  · intro id v hv hkept
    rw [params_blockParams, mem_without]
    obtain ⟨k, hk⟩ := List.getElem?_of_mem hv
    exact ⟨k, hk, fun hmem => hkept (isDropped_of_mem hk hmem)⟩
  · intro id j i hi v hdef _
    exact ⟨_, List.mem_singleton_self _, by simpa using hdef⟩
  · intro id hid j i hi known hknown
    refine ⟨fun v hv => ?_, by simp [Scoped]⟩
    rw [Instr.uses_mapUses] at hv
    obtain ⟨w, hw, rfl⟩ := List.mem_map.mp hv
    have hdefined := hssa.isDefinedAt_of_mem_uses hid (hssa.getElem?_block hid) hi hw
    exact hknown _ ((hstands w).defined hid hdefined) (not_isDropped_standsFor hf hid hdefined)
  · intro id hid v hv
    rw [terminator_blockParams, Terminator.uses_mapUses] at hv
    obtain ⟨w, hw, rfl⟩ := List.mem_map.mp hv
    have hdefined := hssa.isDefinedAt_of_mem_terminator hid (hssa.getElem?_block hid)
      (uses_dropArgs_subset f _ hw)
    exact ⟨(hstands w).defined hid hdefined, not_isDropped_standsFor hf hid hdefined⟩

theorem verify_blockParams (hf : f.verify = .ok ()) :
  (blockParams f).2.verify = .ok ()
  := by
  have hssa := Function.isSsa_of_verify hf
  have hkeeps : ∀ v, Verify.KeepsType f (blockParams f).2 v (standsFor f v) := by
    intro v
    have hstands := standsFor_follow (fun w next => standsFor_replacedParams hf) v
      (replacedParams f).length
    exact Verify.keepsType_iff.mpr fun t ht => hstands.type ▸ ht
  have hrefl : ∀ v, Verify.KeepsType f (blockParams f).2 v v := fun v =>
    Verify.keepsType_iff.mpr fun t ht => ht
  refine Function.verify_of_blocks ((replaces_blockParams hf).isSsa hssa) ?_ ?_ ?_ ?_
  · have hshape : Verify.shape (blockParams f).2 = Verify.shape f := by
      simp only [Verify.shape, length_blockParams]
      have hentry : ((blockParams f).2.block (blockParams f).2.entry).params = (f.block f.entry).params :=
        (params_blockParams f f.entry).trans (without_dropped_entry f _)
      rw [hentry]
      rfl
    rw [hshape]
    exact (Function.verify_eq_ok.mp hf).1
  · exact fun id v hv => Verify.lt_of_mem_defs hf ((defs_blockParams_sublist f id).subset hv)
  · intro id i hi
    rw [instrs_blockParams, ← List.map_eq_flatMap] at hi
    obtain ⟨⟨i, j⟩, hline, rfl⟩ := List.mem_map.mp hi
    have hi := List.mem_of_getElem? (List.mk_mem_zipIdx_iff_getElem?.mp hline)
    have hrename := Verify.keeps_instr_rename (f := f) (g := (blockParams f).2) rfl (i := i) (standsFor f)
      (fun v => v) (fun v _ => hkeeps v) fun v _ => hrefl v
    exact (Instr.mapDef_id (i.mapUses (standsFor f))) ▸ hrename () (Verify.instr_of_mem hf hi)
  · intro id hid
    rw [length_blockParams] at hid
    have hcheck := Verify.terminator_of_lt hf hid
    rw [terminator_blockParams]
    cases hold : (f.block id).terminator with
    | ret value =>
      rw [hold] at hcheck
      cases value with
      | none => exact hcheck
      | some v => exact (hkeeps v).expect _ () hcheck
    | unreachable => rfl
    | branch test thenBlock elseBlock =>
      rw [hold] at hcheck
      obtain ⟨htest, htargets⟩ := Verify.branch_eq_ok.mp hcheck
      refine Verify.branch_eq_ok.mpr ⟨Verify.keepsType_iff.mp (hkeeps test) _ htest, fun next hnext => ?_⟩
      obtain ⟨hlt, hparams⟩ := htargets next hnext
      rw [length_blockParams, params_blockParams, hparams]
      exact ⟨hlt, rfl⟩
    | jump target args =>
      rw [hold] at hcheck
      obtain ⟨hlt, hlength, htypes⟩ := Verify.jump_eq_ok.mp hcheck
      refine Verify.jump_eq_ok.mpr ⟨?_, ?_, ?_⟩
      · rwa [length_blockParams]
      · rw [params_blockParams, List.length_map, length_without hlength]
      · rw [params_blockParams, List.zip_map_left]
        rintro _ hpair
        obtain ⟨⟨arg, param⟩, hmem, rfl⟩ := List.mem_map.mp hpair
        obtain ⟨k, harg, hparam, -⟩ := (mem_zip_without _ hlength.symm).mp hmem
        obtain ⟨t, ht, ht'⟩ := htypes (arg, param)
          (List.mem_of_getElem? (List.getElem?_zip_eq_some.mpr ⟨harg, hparam⟩))
        exact ⟨t, Verify.keepsType_iff.mp (hkeeps arg) t ht, ht'⟩

/-! ## Runs -/

/-- A variable that is read has the value of the one that is read in its place. -/
theorem vars_standsFor (hf : f.verify = .ok ()) (hid : id ∈ f.reversePostorder) {j : Nat} {s t : State}
    (hsimilar : Similar (IsDropped f) s t)
    (hholds : HoldAt f (fun v vars => ∀ id position source, IsRedundant f id position v source →
      vars source = vars v) id j s.vars) (hv : IsDefinedAt f id j v) :
  t.vars (standsFor f v) = s.vars v
  := by
  rw [← hsimilar.2 _ (not_isDropped_standsFor hf hid hv)]
  refine vars_follow (fun w next => standsFor_replacedParams hf) hid (fun w next hlookup hw => ?_) hv _
  obtain ⟨d, position, hmem⟩ := exists_of_lookup_replacedParams hlookup
  exact hholds w hw d position next (isRedundant_of_mem hmem)

/-- Parameters that are kept receive the same values. -/
theorem similar_passArgs {target : BlockId} {s t : State} (hnodup : (f.block target).params.Nodup)
    (hlength : (f.block target).params.length = args.length) (hsimilar : Similar (IsDropped f) s t)
    (hargs : ∀ v ∈ args, t.vars (standsFor f v) = s.vars v) :
  Similar (IsDropped f) ⟨passArgs (f.block target).params args s.vars, s.store⟩
    ⟨passArgs (without (dropped f target) (f.block target).params)
      ((without (dropped f target) args).map (standsFor f)) t.vars, t.store⟩
  := by
  refine ⟨hsimilar.1, fun v hv => ?_⟩
  by_cases hparam : v ∈ (f.block target).params
  · obtain ⟨k, hk⟩ := List.getElem?_of_mem hparam
    have hlt : k < args.length := hlength ▸ (List.getElem?_eq_some_iff.mp hk).1
    have harg := List.getElem?_eq_getElem hlt
    have hpair : (v, args[k]) ∈ (without (dropped f target) (f.block target).params).zip
        (without (dropped f target) args) :=
      (mem_zip_without _ hlength).mpr ⟨k, hk, harg, fun hmem => hv (isDropped_of_mem hk hmem)⟩
    obtain ⟨n, hn⟩ := List.getElem?_of_mem hpair
    rw [List.getElem?_zip_eq_some] at hn
    have hkept := lookup_zip_of_getElem? (hnodup.sublist (without_sublist _ _)) hn.1 hn.2
    simp only [passArgs, lookup_zip_map, hkept, lookup_zip_of_getElem? hnodup hk harg, Option.map_some]
    exact (hargs _ (List.getElem_mem hlt)).symm
  · simp only
    rw [passArgs_of_not_mem hparam,
      passArgs_of_not_mem fun hmem => hparam ((without_sublist _ _).subset hmem)]
    exact hsimilar.2 v hv

theorem follows_blockParams (hf : f.verify = .ok ()) (W : World) :
  Follows W f (blockParams f).2 (fun _ line => [line.1.mapUses (standsFor f)]) fun id j s t =>
    Similar (IsDropped f) s t
      ∧ HoldAt f (fun v vars => ∀ id position source, IsRedundant f id position v source →
        vars source = vars v) id j s.vars
  := by
  have hssa := Function.isSsa_of_verify hf
  have hinvariant := (equations_redundant hssa W W.caller).invariant hssa
  constructor
  · rfl
  · exact instrs_blockParams f
  · exact fun args vars store => ⟨⟨rfl, fun _ _ => rfl⟩, hinvariant.start args vars store⟩
  · rintro id j i s t hid hi ⟨hsimilar, hholds⟩
    refine (Agree.and ?_ fun s' hrun => hinvariant.instr hid hi hholds hrun)
    have hact : (i.mapUses (standsFor f)).act W W.caller f.varType t.vars t.store
        = i.act W W.caller f.varType s.vars s.store := by
      rw [Instr.act_mapUses, hsimilar.1]
      refine Instr.act_congr fun v hv => vars_standsFor hf hid hsimilar hholds ?_
      exact hssa.isDefinedAt_of_mem_uses hid (hssa.getElem?_block hid) hi hv
    rw [runAll_singleton]
    unfold Instr.run
    rw [show (blockParams f).2.varType = f.varType from rfl, hact, Instr.def?_mapUses]
    refine (agree_eq.mpr rfl).bind ?_
    rintro ⟨x, after⟩ _ rfl
    refine ⟨_, rfl, rfl, fun v hv => ?_⟩
    simp only [setVar]
    split
    · rfl
    · exact hsimilar.2 v hv
  · rintro id s t hid ⟨hsimilar, hholds⟩
    have hblock := hssa.getElem?_block hid
    have hvars : ∀ v ∈ (f.block id).terminator.uses, t.vars (standsFor f v) = s.vars v := by
      intro v hv
      refine vars_standsFor hf hid hsimilar hholds ?_
      rw [Block.length_instrs]
      exact hssa.isDefinedAt_of_mem_terminator hid hblock hv
    have hagree : Agree (fun p q : Point => p.1 = q.1 ∧ Similar (IsDropped f) p.2 q.2)
        ((f.block id).terminator.run f s) (((blockParams f).2.block id).terminator.run (blockParams f).2 t) := by
      rw [terminator_blockParams]
      cases hlast : (f.block id).terminator with
      | unreachable =>
        simp only [dropArgs, Terminator.mapUses, Terminator.run, hsimilar.1]
        rfl
      | ret value =>
        cases value with
        | none =>
          simp only [dropArgs, Terminator.mapUses, Terminator.run, hsimilar.1]
          rfl
        | some v =>
          simp only [dropArgs, Terminator.mapUses, Terminator.run, hsimilar.1, Option.map_some,
            hvars v (by simp [hlast, Terminator.uses])]
          rfl
      | branch test thenBlock elseBlock =>
        simp only [dropArgs, Terminator.mapUses, Terminator.run,
          hvars test (by simp [hlast, Terminator.uses])]
        exact ⟨_, rfl, rfl, hsimilar⟩
      | jump target args =>
        obtain ⟨hlt, hlength⟩ := hssa.jump hblock hlast
        have hnodup := hssa.nodup (show f.blocks[target]? = some (f.block target) by simp [Function.block, hlt])
        simp only [dropArgs, Terminator.mapUses, Terminator.run, params_blockParams]
        refine ⟨_, rfl, rfl, similar_passArgs hnodup hlength hsimilar fun v hv => hvars v ?_⟩
        simpa [hlast, Terminator.uses] using hv
    refine (hagree.and fun p hp => hinvariant.last hid hholds hp).mono ?_
    rintro p q ⟨⟨hpq, hsimilar⟩, hholds⟩
    exact ⟨hpq, hsimilar, hholds⟩
  · exact fun h => h.1.1
  · exact fun h => h.1.1

theorem isSound_blockParams :
  blockParams.IsSound
  := fun _ hf => ⟨verify_blockParams hf, fun W _ => (follows_blockParams hf W).lockstep.sameBehaviour⟩

end Fold

end FormCompiler.Flow
