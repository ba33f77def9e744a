import FormCompiler.Proofs.Flow.Behaviour
import FormCompiler.Proofs.Flow.Defined

/-!
# Single assignment

In a function in *static single assignment form* every variable is defined at one place, and where
it is read it has been defined on every path. So what is known of a variable when it is defined stays
true as long as the variable can be read: none of the variables that it was computed from can be
defined in between. `Function.IsSsa` says what the form is, and `Equations` what can be known.
-/

namespace FormCompiler.Flow

open Verify (IsSite IsDefinedAt Site)

/-- A function in static single assignment form. -/
structure Function.IsSsa (f : Function) : Prop where
  entry : ∃ b, f.blocks[f.entry]? = some b ∧ b.params = f.params
  unique : ∀ {v site site'}, IsSite f v site → IsSite f v site' → site = site'
  nodup : ∀ {id : BlockId} {b}, f.blocks[id]? = some b → b.params.Nodup
  reads : ∀ {id : BlockId} {b v position}, id ∈ f.reversePostorder → f.blocks[id]? = some b →
    (v, position) ∈ Verify.reads b → IsDefinedAt f id position v
  jump : ∀ {id : BlockId} {b target args}, f.blocks[id]? = some b → b.terminator = .jump target args →
    target < f.blocks.length ∧ (f.block target).params.length = args.length
  branch : ∀ {id : BlockId} {b test thenBlock elseBlock}, f.blocks[id]? = some b →
    b.terminator = .branch test thenBlock elseBlock →
    ∀ next ∈ [thenBlock, elseBlock], next < f.blocks.length ∧ (f.block next).params = []

section

variable {f : Function} {id : BlockId} {b : Block} {v u : VarId}

theorem Verify.isSite_unique (h : f.verify = .ok ()) {site site' : Site} (hsite : IsSite f v site)
    (hsite' : IsSite f v site') :
  site = site'
  := by
  obtain ⟨-, hdefinitions, -⟩ := Function.verify_eq_ok.mp h
  obtain ⟨hnodup, -⟩ := nodup_of_definitions hdefinitions
  have hmem := mem_allSites.mpr hsite
  have hmem' := mem_allSites.mpr hsite'
  exact congrArg Prod.snd (List.inj_on_of_nodup_map hnodup hmem hmem' rfl)

/-- A well-formed function is in single assignment form. -/
theorem Function.isSsa_of_verify (h : f.verify = .ok ()) :
  f.IsSsa
  := by
  constructor
  · exact Verify.entry_of_shape (Function.verify_eq_ok.mp h).1
  · exact fun hsite hsite' => Verify.isSite_unique h hsite hsite'
  · intro id b hb
    obtain ⟨-, hdefinitions, -⟩ := Function.verify_eq_ok.mp h
    obtain ⟨hnodup, -⟩ := Verify.nodup_of_definitions hdefinitions
    rw [Verify.map_fst_allSites] at hnodup
    have hdefs := (List.nodup_flatMap.mp hnodup).1 b (List.mem_of_getElem? hb)
    exact (List.nodup_append.mp hdefs).1
  · exact fun hid hb hread => Verify.isDefinedAt_of_mem_reads h hid hb hread
  · intro id b target args hb hterminator
    have hcheck := Verify.terminator_eq_ok h hb
    rw [hterminator] at hcheck
    obtain ⟨htarget, hlength, -⟩ := Verify.jump_eq_ok.mp hcheck
    exact ⟨htarget, hlength⟩
  · intro id b test thenBlock elseBlock hb hterminator
    have hcheck := Verify.terminator_eq_ok h hb
    rw [hterminator] at hcheck
    exact (Verify.branch_eq_ok.mp hcheck).2

namespace Function.IsSsa

variable {j k : Nat} {i i' : Instr}

/-! ## Blocks -/

theorem lt_of_mem_successors (h : f.IsSsa) {next : BlockId} (hnext : next ∈ f.successors id) :
  next < f.blocks.length
  := by
  unfold Function.successors Function.block at hnext
  cases hb : f.blocks[id]? with
  | none => simp [List.getD, hb, Block.empty, Terminator.successors] at hnext
  | some b =>
    simp only [List.getD, hb, Option.getD_some] at hnext
    cases hterminator : b.terminator with
    | ret | unreachable => simp [hterminator, Terminator.successors] at hnext
    | jump target args =>
      rw [hterminator] at hnext
      obtain rfl : next = target := by simpa [Terminator.successors] using hnext
      exact (h.jump hb hterminator).1
    | branch test thenBlock elseBlock =>
      rw [hterminator] at hnext
      exact (h.branch hb hterminator next hnext).1

theorem getElem?_block (h : f.IsSsa) (hid : id ∈ f.reversePostorder) :
  f.blocks[id]? = some (f.block id)
  := by
  have hlt : id < f.blocks.length := by
    cases Function.mem_reachedAvoiding.mp hid with
    | entry =>
      obtain ⟨b, hb, -⟩ := h.entry
      exact (List.getElem?_eq_some_iff.mp hb).1
    | step _ hnext _ => exact h.lt_of_mem_successors hnext
  simp [Function.block, hlt]

theorem mem_reversePostorder_entry (f : Function) :
  f.entry ∈ f.reversePostorder
  := List.mem_of_mem_head? f.head?_reversePostorder

/-! ## Definitions -/

variable (h : f.IsSsa)

include h

theorem isDefinedAt_of_mem_uses (hid : id ∈ f.reversePostorder) (hb : f.blocks[id]? = some b)
    (hi : b.instrs[j]? = some i) (hv : v ∈ i.uses) :
  IsDefinedAt f id j v
  := by
  refine h.reads hid hb (List.mem_append_left _ (List.mem_flatMap.mpr ?_))
  exact ⟨(i, j), List.mk_mem_zipIdx_iff_getElem?.mpr hi, List.mem_map.mpr ⟨v, hv, rfl⟩⟩

theorem isDefinedAt_of_mem_terminator (hid : id ∈ f.reversePostorder) (hb : f.blocks[id]? = some b)
    (hv : v ∈ b.terminator.uses) :
  IsDefinedAt f id b.body.length v
  := h.reads hid hb (List.mem_append_right _ (List.mem_map.mpr ⟨v, hv, rfl⟩))

/-- In a block, a variable is defined before it is read. -/
theorem lt_of_mem_uses (hid : id ∈ f.reversePostorder) (hb : f.blocks[id]? = some b) (hi : b.instrs[j]? = some i)
    (hv : v ∈ i.uses) (hi' : b.instrs[k]? = some i') (hdef : i'.def? = some v) :
  k < j
  := by
  have hsite' : IsSite f v ⟨id, some k⟩ := ⟨b, hb, i', hi', hdef⟩
  obtain ⟨site, hsite, hwhere⟩ := h.isDefinedAt_of_mem_uses hid hb hi hv
  obtain rfl := h.unique hsite hsite'
  rcases hwhere with ⟨-, hbefore⟩ | ⟨hne, -⟩
  · exact hbefore k rfl
  · exact absurd rfl hne

/-- An instruction of a block is the only one that defines its variable. -/
theorem eq_of_def? (hb : f.blocks[id]? = some b) (hi : b.instrs[j]? = some i) (hdef : i.def? = some v)
    (hi' : b.instrs[k]? = some i') (hdef' : i'.def? = some v) :
  j = k
  := by
  have hsite : IsSite f v ⟨id, some j⟩ := ⟨b, hb, i, hi, hdef⟩
  have hsite' : IsSite f v ⟨id, some k⟩ := ⟨b, hb, i', hi', hdef'⟩
  simpa using h.unique hsite hsite'

/-- What an instruction defines is not defined before it. -/
theorem def?_ne (hb : f.blocks[id]? = some b) (hi : b.instrs[j]? = some i) (hv : IsDefinedAt f id j v) :
  i.def? ≠ some v
  := by
  intro hdef
  have hsite : IsSite f v ⟨id, some j⟩ := ⟨b, hb, i, hi, hdef⟩
  obtain ⟨site, hsite', ⟨-, hbefore⟩ | ⟨hne, -⟩⟩ := hv
  · obtain rfl := h.unique hsite' hsite
    exact Nat.lt_irrefl j (hbefore j rfl)
  · obtain rfl := h.unique hsite' hsite
    exact hne rfl

/-- Where a variable has been defined, so has been what was defined before it. -/
theorem isDefinedAt_trans {position : Nat} (hv : IsDefinedAt f id position v) {site : Site} (hsite : IsSite f v site)
    (hu : IsDefinedAt f site.block (site.position.getD 0) u) :
  IsDefinedAt f id position u
  := by
  obtain ⟨site', hsite', hwhere⟩ := hv
  obtain rfl := h.unique hsite' hsite
  obtain ⟨before, hbefore, hearlier⟩ := hu
  rcases hwhere with ⟨rfl, hposition⟩ | ⟨hne, hdominates⟩
  · refine ⟨before, hbefore, hearlier.imp_left ?_⟩
    rintro ⟨hblock, hj⟩
    refine ⟨hblock, fun j hj' => ?_⟩
    have hlt := hj j hj'
    cases hsome : site'.position with
    | none => simp [hsome] at hlt
    | some k =>
      rw [hsome, Option.getD_some] at hlt
      exact hlt.trans (hposition k hsome)
  · rcases hearlier with ⟨hblock, -⟩ | ⟨hne', hdominates'⟩
    · exact ⟨before, hbefore, .inr ⟨hblock ▸ hne, hblock ▸ hdominates⟩⟩
    · refine ⟨before, hbefore, .inr ⟨?_, Function.dominates_trans hdominates' hdominates⟩⟩
      rintro rfl
      exact hne (Function.dominates_antisymm hdominates hdominates')

/-- Entering a block defines nothing that the variables defined before depend on. -/
theorem not_mem_params {next : BlockId} (hv : IsDefinedAt f next 0 v) (hparam : v ∉ (f.block next).params)
    {site : Site} (hsite : IsSite f v site) (hu : IsDefinedAt f site.block (site.position.getD 0) u) :
  u ∉ (f.block next).params
  := by
  intro hmem
  obtain ⟨site', hsite', hwhere⟩ := hv
  obtain rfl := h.unique hsite' hsite
  have hnext : f.blocks[next]? = some (f.block next) := by
    have hlt : next < f.blocks.length := by
      by_contra hge
      rw [Function.block, List.getD_eq_default _ _ (Nat.le_of_not_lt hge)] at hmem
      cases hmem
    simp [Function.block, hlt]
  have hparamSite : IsSite f u ⟨next, none⟩ := ⟨_, hnext, hmem⟩
  rcases hwhere with ⟨hblock, hposition⟩ | ⟨hne, hdominates⟩
  · cases hsome : site'.position with
    | some k => exact Nat.not_lt_zero k (hposition k hsome)
    | none =>
      obtain ⟨b, hb, hmatch⟩ := hsite'
      rw [hsome] at hmatch
      rw [hblock, hnext] at hb
      obtain rfl := Option.some.inj hb
      exact hparam hmatch
  · obtain ⟨before, hbefore, hearlier⟩ := hu
    obtain rfl := h.unique hbefore hparamSite
    rcases hearlier with ⟨hblock, -⟩ | ⟨-, hdominates'⟩
    · exact hne hblock.symm
    · exact hne (Function.dominates_antisymm hdominates hdominates')

end Function.IsSsa

end

/-! ## Equations -/

/--
What is known of variables from their definitions on: `E v vars` says something of `v` and of the
variables that `v` depends on, which are defined before it.
-/
structure Equations (f : Function) (W : World) (calls : Caller)
    (E : VarId → (VarId → Val) → Prop) (dependsOn : VarId → VarId → Prop) : Prop where
  congr : ∀ {v vars vars'}, vars v = vars' v → (∀ u, dependsOn v u → vars u = vars' u) →
    E v vars → E v vars'
  early : ∀ {v u site}, IsSite f v site → site.block ∈ f.reversePostorder → dependsOn v u →
    IsDefinedAt f site.block (site.position.getD 0) u
  entry : ∀ {v}, v ∈ f.params → ∀ vars, E v vars
  instr : ∀ {id : BlockId} {b v} {j : Nat} {i : Instr} {s s' : State}, id ∈ f.reversePostorder → f.blocks[id]? = some b →
    b.instrs[j]? = some i → i.def? = some v → i.run W calls f.varType s = .ok s' → E v s'.vars
  param : ∀ {id : BlockId} {b v target args vars}, id ∈ f.reversePostorder → f.blocks[id]? = some b →
    b.terminator = .jump target args → v ∈ (f.block target).params →
    (∀ w, IsDefinedAt f id b.body.length w → E w vars) →
    E v (passArgs (f.block target).params args vars)

/-- What is known of the variables that are defined at a position. -/
def HoldAt (f : Function) (E : VarId → (VarId → Val) → Prop) (id : BlockId) (position : Nat)
    (vars : VarId → Val) : Prop :=
  ∀ v, IsDefinedAt f id position v → E v vars

section

variable {f : Function} {W : World} {calls : Caller} {E : VarId → (VarId → Val) → Prop}
  {dependsOn : VarId → VarId → Prop} {id : BlockId} {b : Block}
variable {v : VarId}

theorem passArgs_of_not_mem {params args : List VarId} {vars : VarId → Val} (h : v ∉ params) :
  passArgs params args vars v = vars v
  := by
  unfold passArgs
  have hlookup : (params.zip args).lookup v = none := by
    rw [List.lookup_eq_none_iff]
    rintro ⟨param, arg⟩ hmem
    simp only [bne_iff_ne, ne_eq]
    rintro rfl
    exact h (List.of_mem_zip hmem).1
  rw [hlookup]

/-- What a parameter receives. -/
theorem lookup_zip_of_getElem? {α : Type} {params : List VarId} {args : List α} (hnodup : params.Nodup) {k : Nat}
    {arg : α} (hparam : params[k]? = some v) (harg : args[k]? = some arg) :
  (params.zip args).lookup v = some arg
  := by
  have hmem : (v, arg) ∈ params.zip args :=
    List.mem_of_getElem? (List.getElem?_zip_eq_some.mpr ⟨hparam, harg⟩)
  have hkeys : ∀ args : List α, ((params.zip args).map (·.1)).Sublist params := by
    intro args
    clear hnodup hparam harg hmem
    induction params generalizing args with
    | nil => simp
    | cons param params ih =>
      cases args with
      | nil => simp
      | cons arg args => exact (ih args).cons_cons param
  exact lookup_eq_some_of_mem (p := (v, arg)) (hnodup.sublist (hkeys args)) hmem

theorem Verify.IsDefinedAt.exists_site {position : Nat} (h : IsDefinedAt f id position v) :
  ∃ site, IsSite f v site
  := by
  obtain ⟨site, hsite, -⟩ := h
  exact ⟨site, hsite⟩

/-- A definition that is reached comes from a block that is reached. -/
theorem mem_reversePostorder_of_isDefinedAt {position : Nat} {site : Site} (h : f.IsSsa)
    (hid : id ∈ f.reversePostorder) (hv : IsDefinedAt f id position v) (hsite : IsSite f v site) :
  site.block ∈ f.reversePostorder
  := by
  obtain ⟨site', hsite', hwhere⟩ := hv
  obtain rfl := h.unique hsite' hsite
  rcases hwhere with ⟨rfl, -⟩ | ⟨hne, hdominates⟩
  · exact hid
  · obtain ⟨hreached, hnot⟩ := (Function.dominates_iff.mp hdominates).resolve_left hne
    by_contra hout
    apply hnot
    have hpath := Function.mem_reachedAvoiding.mp hreached
    rcases hpath.avoid with hb | hid
    · exact absurd (Function.mem_reachedAvoiding.mpr hb) hout
    · exact hid

variable (hE : Equations f W calls E dependsOn)

include hE

/-- An instruction keeps what is known, and adds what is known of the variable that it defines. -/
theorem Equations.holdAt_instr (hf : f.IsSsa) (hid : id ∈ f.reversePostorder) (hb : f.blocks[id]? = some b) {j : Nat}
    {i : Instr} (hi : b.instrs[j]? = some i) {s s' : State} (hs : HoldAt f E id j s.vars)
    (hrun : i.run W calls f.varType s = .ok s') :
  HoldAt f E id (j + 1) s'.vars
  := by
  intro v hv
  by_cases hdef : i.def? = some v
  · exact hE.instr hid hb hi hdef hrun
  have hbefore : IsDefinedAt f id j v := by
    refine hv.of_succ hb fun i' hi' => ?_
    rw [hi] at hi'
    obtain rfl := Option.some.inj hi'
    exact hdef
  have hkept : ∀ u, IsDefinedAt f id j u → s.vars u = s'.vars u := by
    intro u hu
    obtain ⟨x, after, -, rfl⟩ := Instr.run_eq_ok.mp hrun
    exact (setVar_of_ne (hf.def?_ne hb hi hu)).symm
  obtain ⟨site, hsite⟩ := hbefore.exists_site
  have hreached := mem_reversePostorder_of_isDefinedAt hf hid hbefore hsite
  refine hE.congr (hkept v hbefore) (fun u hu => hkept u ?_) (hs v hbefore)
  exact hf.isDefinedAt_trans hbefore hsite (hE.early hsite hreached hu)

/-- What is known at the end of a block is known at the start of the next one. -/
theorem Equations.holdAt_terminator (hf : f.IsSsa) (hid : id ∈ f.reversePostorder) (hb : f.blocks[id]? = some b)
    {s : State} (hs : HoldAt f E id b.body.length s.vars) {p : Point} (hrun : b.terminator.run f s = .ok p) :
  p.1 ∈ f.reversePostorder ∧ HoldAt f E p.1 0 p.2.vars
  := by
  have hsuccessors : f.successors id = b.terminator.successors := by
    simp [Function.successors, Function.block, hb]
  cases hterminator : b.terminator with
  | ret | unreachable =>
    rw [hterminator] at hrun
    cases hrun
  | branch test thenBlock elseBlock =>
    rw [hterminator] at hrun hsuccessors
    obtain rfl : _ = p := Except.ok.inj hrun
    have hmem : (if (s.vars test).isTrue then thenBlock else elseBlock) ∈ f.successors id := by
      rw [hsuccessors]
      split <;> simp [Terminator.successors]
    refine ⟨Function.mem_reversePostorder_of_successor hid hmem, fun v hv => hs v ?_⟩
    have hparams : (f.block (if (s.vars test).isTrue then thenBlock else elseBlock)).params = [] := by
      rw [hsuccessors] at hmem
      exact (hf.branch hb hterminator _ hmem).2
    exact (hv.of_successor hid hmem hb).resolve_left (by rw [hparams]; exact List.not_mem_nil)
  | jump target args =>
    rw [hterminator] at hrun hsuccessors
    obtain rfl : _ = p := Except.ok.inj hrun
    have hmem : target ∈ f.successors id := by simp [hsuccessors, Terminator.successors]
    have hnext := Function.mem_reversePostorder_of_successor hid hmem
    refine ⟨hnext, fun v hv => ?_⟩
    by_cases hparam : v ∈ (f.block target).params
    · exact hE.param hid hb hterminator hparam hs
    have hbefore := (hv.of_successor hid hmem hb).resolve_left hparam
    obtain ⟨site, hsite⟩ := hv.exists_site
    have hreached := mem_reversePostorder_of_isDefinedAt hf hnext hv hsite
    refine hE.congr (passArgs_of_not_mem hparam).symm (fun u hu => ?_) (hs v hbefore)
    have hearly := hE.early hsite hreached hu
    exact (passArgs_of_not_mem (hf.not_mem_params hv hparam hsite hearly)).symm

/-- Nothing but parameters is known at the start of a function. -/
theorem Equations.holdAt_start (hf : f.IsSsa) (vars : VarId → Val) :
  HoldAt f E f.entry 0 vars
  := by
  intro v hv
  obtain ⟨b, hb, hparams⟩ := hf.entry
  have hentry := hv.of_entry
  rw [show f.block f.entry = b by simp [Function.block, hb], hparams] at hentry
  exact hE.entry hentry vars

end

/-! ## What variables are set to -/

/-- A variable that is set has the value that it was set to. -/
def SetHolds (f : Function) (W : World) (v : VarId) (vars : VarId → Val) : Prop :=
  ∀ value, (∃ b ∈ f.blocks, .set v value ∈ b.instrs) → value.eval W (f.varType v) vars = some (vars v)

/-- A variable is set to something that another one is read for. -/
def SetReads (f : Function) (v u : VarId) : Prop :=
  ∃ b ∈ f.blocks, ∃ value, .set v value ∈ b.instrs ∧ u ∈ value.uses

section

variable {f : Function} {W : World} {calls : Caller} {id : BlockId} {b : Block}

/-- In single assignment form, the instruction that sets a variable is where the variable is defined. -/
theorem Function.IsSsa.getElem?_of_set (hf : f.IsSsa) {v : VarId} {site : Site} (hsite : IsSite f v site)
    {value : Value} (hset : ∃ b ∈ f.blocks, .set v value ∈ b.instrs) :
  ∃ b j, f.blocks[site.block]? = some b ∧ site.position = some j
    ∧ b.instrs[j]? = some (.set v value)
  := by
  obtain ⟨b, hb, hmem⟩ := hset
  obtain ⟨id, hid⟩ := List.getElem?_of_mem hb
  obtain ⟨j, hj⟩ := List.getElem?_of_mem hmem
  have hsite' : IsSite f v ⟨id, some j⟩ := ⟨b, hid, _, hj, rfl⟩
  obtain rfl := hf.unique hsite hsite'
  exact ⟨b, j, hid, rfl, hj⟩

theorem equations_set (hf : f.IsSsa) (W : World) (calls : Caller) :
  Equations f W calls (SetHolds f W) (SetReads f)
  := by
  constructor
  · intro v vars vars' hv hdeps h value hset
    have hvalue := h value hset
    obtain ⟨b, hb, hmem⟩ := hset
    rw [← hv, ← hvalue]
    exact (Value.eval_congr fun u hu => hdeps u ⟨b, hb, value, hmem, hu⟩).symm
  · rintro v u site hsite hreached ⟨b, hb, value, hmem, hu⟩
    obtain ⟨b', j, hb', hj, hget⟩ := hf.getElem?_of_set hsite ⟨b, hb, hmem⟩
    rw [hj, Option.getD_some]
    exact hf.isDefinedAt_of_mem_uses hreached hb' hget hu
  · intro v hv vars value hset
    obtain ⟨b, hb, hparams⟩ := hf.entry
    have hsite : IsSite f v ⟨f.entry, none⟩ := ⟨b, hb, by rwa [hparams]⟩
    obtain ⟨_, _, -, hnone, -⟩ := hf.getElem?_of_set hsite hset
    cases hnone
  · intro id b v j i s s' hid hb hi hdef hrun value hset
    have hsite : IsSite f v ⟨id, some j⟩ := ⟨b, hb, i, hi, hdef⟩
    obtain ⟨b', k, hb', hk, hget⟩ := hf.getElem?_of_set hsite hset
    obtain rfl := Option.some.inj hk
    rw [hb] at hb'
    obtain rfl := Option.some.inj hb'
    rw [hi] at hget
    obtain rfl := Option.some.inj hget
    obtain ⟨x, after, hact, rfl⟩ := Instr.run_eq_ok.mp hrun
    simp only [Instr.act] at hact
    cases heval : value.eval W (f.varType v) s.vars with
    | none =>
      rw [heval] at hact
      cases hact
    | some y =>
      rw [heval] at hact
      cases hact
      -- The variable is not among those that it is computed from.
      have hne : ∀ u ∈ value.uses, u ≠ v := by
        rintro u hu rfl
        exact hf.def?_ne hb hi (hf.isDefinedAt_of_mem_uses hid hb hi hu) rfl
      have hsame : value.eval W (f.varType v) (setVar s.vars (some v) x) = some x := by
        rw [← heval]
        exact Value.eval_congr fun u hu => setVar_of_ne (by simpa using (hne u hu).symm)
      simpa [Instr.def?, setVar] using hsame
  · intro id b v target args vars hid hb hterminator hparam _ value hset
    have hlt := (hf.jump hb hterminator).1
    have hsite : IsSite f v ⟨target, none⟩ := ⟨f.block target, by simp [Function.block, hlt], hparam⟩
    obtain ⟨_, _, -, hnone, -⟩ := hf.getElem?_of_set hsite hset
    cases hnone

end

end FormCompiler.Flow
