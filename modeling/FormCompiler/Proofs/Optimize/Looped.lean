import FormCompiler.Optimize.TailCall
import FormCompiler.Proofs.Flow.Rename
import FormCompiler.Proofs.Flow.Stored
import FormCompiler.Proofs.Flow.Uses

/-!
# A jump back to the entry

A function that calls itself at the end of a block and returns the answer can jump back to its entry
instead. This module says what becomes of the function: it stays well-formed, as the only new edge goes to
the entry and nothing else reads the answer of the call; and slots that are loaded have still been stored
to since the entry was entered last.
-/

namespace FormCompiler.Flow

open Verify (IsSite IsDefinedAt Site)

/-- What a list of numbers adds up to if one of them is replaced. -/
theorem total_map_modify {α : Type} (weight : α → Nat) (change : α → α) {items : List α} {k : Nat} {a : α}
    (ha : items[k]? = some a) :
  total ((items.modify k change).map weight) + weight a = total (items.map weight) + weight (change a)
  := by
  induction items generalizing k with
  | nil => cases ha
  | cons b rest ih =>
    cases k with
    | zero =>
      obtain rfl : b = a := by simpa using ha
      simp only [List.modify_zero_cons, List.map_cons, total]
      omega
    | succ k =>
      have hrest := ih (k := k) (by simpa using ha)
      simp only [List.modify_succ_cons, List.map_cons, total]
      omega

namespace TailCall

/-! ## Blocks that return -/

section

variable {f : Function} {bound : Nat} {t : Terminator} {value : Option VarId}

theorem mem_uses_of_returnsDirectly {v : VarId} (h : returnsDirectly f bound t (some v) = true) :
  v ∈ t.uses
  := by
  cases bound with
  | zero => cases h
  | succ bound =>
    cases t with
    | ret returned =>
      obtain rfl : returned = some v := by simpa [returnsDirectly] using h
      simp [Terminator.uses]
    | jump target args =>
      simp only [returnsDirectly] at h
      split at h
      · cases hposition : args.idxOf? v with
        | none => simp [hposition] at h
        | some position =>
          have hmem : v ∈ args := List.isSome_idxOf?.mp (by rw [hposition]; rfl)
          exact hmem
      · cases h
    | branch | unreachable => cases h

/-- Control goes through empty blocks, and then the function returns. -/
theorem run_of_returnsDirectly (hf : f.IsSsa) (h : returnsDirectly f bound t value = true) (W : World)
    (calls : Caller) (s : State) :
  ∃ k, (t.run f s >>= steps (f.step W calls) k)
    = .error (.returned s.store.trace s.store.slots (value.map s.vars))
  := by
  induction bound generalizing t value s with
  | zero => cases h
  | succ bound ih =>
    cases t with
    | ret returned =>
      obtain rfl : returned = value := by simpa [returnsDirectly] using h
      exact ⟨0, rfl⟩
    | branch | unreachable => cases h
    | jump target args =>
      simp only [returnsDirectly] at h
      split at h
      · next hempty =>
        have hinstrs : (f.block target).instrs = [] := by
          rw [List.isEmpty_iff] at hempty
          simp [Block.instrs, hempty]
        have hstep : ∀ s, f.step W calls (target, s) = (f.block target).terminator.run f s := by
          intro s
          unfold Function.step
          simp only [hinstrs, runAll_nil]
          rfl
        cases value with
        | none =>
          obtain ⟨k, hk⟩ := ih h ⟨passArgs (f.block target).params args s.vars, s.store⟩
          use k + 1
          change f.step W calls _ >>= steps (f.step W calls) k = _
          rw [hstep]
          exact hk
        | some v =>
          cases hparam : (args.idxOf? v).bind fun position => (f.block target).params[position]? with
          | none => simp [hparam] at h
          | some param =>
            simp only [hparam] at h
            obtain ⟨position, hposition, hget⟩ := Option.bind_eq_some_iff.mp hparam
            obtain ⟨hlt, harg, -⟩ := List.idxOf?_eq_some_iff.mp hposition
            have hblock : f.blocks[target]? = some (f.block target) :=
              Function.getElem?_of_mem_defs (List.mem_append_left _ (List.mem_of_getElem? hget))
            have hlookup := lookup_zip_of_getElem? (hf.nodup hblock) hget
              (List.getElem?_eq_some_iff.mpr ⟨hlt, harg⟩)
            obtain ⟨k, hk⟩ := ih h ⟨passArgs (f.block target).params args s.vars, s.store⟩
            use k + 1
            change f.step W calls _ >>= steps (f.step W calls) k = _
            rw [hstep]
            refine hk.trans ?_
            simp only [Option.map_some, passArgs, hlookup]
      · cases h

end

/-! ## A block that starts the function anew -/

/-- A block ends with a call of the function itself and returns the answer. -/
structure ReturnsCall (f : Function) (id : BlockId) (before : List Line) (dst : Option VarId)
    (args : List VarId) : Prop where
  verified : f.verify = .ok ()
  lt : id < f.blocks.length
  body : ∃ position, (f.block id).body = before ++ [⟨.call dst f.name args .native true, position⟩]
  direct : returnsDirectly f (f.blocks.length + 1) (f.block id).terminator dst = true
  readOnce : ∀ v, dst = some v → f.useCount v ≤ 1
  jump : Verify.terminator f (.jump f.entry args) = .ok ()
  result : dst.isNone = f.result.isNone

/-- The function with a jump to the entry in place of a call at the end of a block. -/
def looped (f : Function) (id : BlockId) (args : List VarId) : Function :=
  f.modifyBlock id fun b => { b with body := b.body.dropLast, terminator := .jump f.entry args }

namespace ReturnsCall

variable {f : Function} {id d : BlockId} {before : List Line} {dst : Option VarId} {args : List VarId}
  {v : VarId}

section

variable (h : ReturnsCall f id before dst args)

include h

theorem ssa :
  f.IsSsa
  := Function.isSsa_of_verify h.verified

theorem instrs :
  (f.block id).instrs = before.map (·.instr) ++ [.call dst f.name args .native true]
  := by
  obtain ⟨position, hbody⟩ := h.body
  simp [Block.instrs, hbody]

theorem block_self :
  (looped f id args).block id = ⟨(f.block id).params, before, .jump f.entry args⟩
  := by
  obtain ⟨position, hbody⟩ := h.body
  rw [looped, Function.block_modifyBlock h.lt, if_pos rfl, hbody, List.dropLast_concat]

theorem block_of_ne (hne : d ≠ id) :
  (looped f id args).block d = f.block d
  := by
  rw [looped, Function.block_modifyBlock h.lt, if_neg hne]

theorem params (d : BlockId) :
  ((looped f id args).block d).params = (f.block d).params
  := by
  by_cases hd : d = id
  · subst hd
    rw [h.block_self]
  · rw [h.block_of_ne hd]

end

theorem length (f : Function) (id : BlockId) (args : List VarId) :
  (looped f id args).blocks.length = f.blocks.length
  := by
  simp [looped, Function.modifyBlock]

theorem instrs_self (h : ReturnsCall f id before dst args) :
  ((looped f id args).block id).instrs = before.map (·.instr)
  := by
  rw [h.block_self]
  rfl

theorem instrs_subset (h : ReturnsCall f id before dst args) {i : Instr}
    (hi : i ∈ ((looped f id args).block d).instrs) :
  i ∈ (f.block d).instrs
  := by
  by_cases hd : d = id
  · subst hd
    rw [h.instrs_self] at hi
    rw [h.instrs]
    exact List.mem_append_left _ hi
  · rwa [h.block_of_ne hd] at hi

theorem getElem?_block {b : Block} (hb : (looped f id args).blocks[d]? = some b) :
  f.blocks[d]? = some (f.block d) ∧ b = (looped f id args).block d
  := by
  have hlt : d < f.blocks.length := length f id args ▸ (List.getElem?_eq_some_iff.mp hb).1
  exact ⟨by simp [Function.block, hlt], by simp [Function.block, hb]⟩

/-! ## Paths -/

section

variable (h : ReturnsCall f id before dst args)

include h

/-- The only new edge goes to the entry. -/
theorem mem_successors {next : BlockId} (hnext : next ∈ (looped f id args).successors d) :
  next = f.entry ∧ d = id ∨ next ∈ f.successors d ∧ d ≠ id
  := by
  unfold Function.successors at hnext
  by_cases hd : d = id
  · subst hd
    rw [h.block_self] at hnext
    exact .inl ⟨by simpa [Terminator.successors] using hnext, rfl⟩
  · rw [h.block_of_ne hd] at hnext
    exact .inr ⟨hnext, hd⟩

theorem reaches {avoided : List BlockId} (hd : (looped f id args).Reaches avoided d) :
  f.Reaches avoided d
  := by
  induction hd with
  | entry hnot => exact .entry hnot
  | step _ hnext hnot ih =>
    rcases h.mem_successors hnext with ⟨rfl, -⟩ | ⟨hnext, -⟩
    · exact .entry hnot
    · exact ih.step hnext hnot

theorem mem_reversePostorder (hd : d ∈ (looped f id args).reversePostorder) :
  d ∈ f.reversePostorder
  := Function.mem_reachedAvoiding.mpr (h.reaches (Function.mem_reachedAvoiding.mp hd))

theorem dominates {b : BlockId} (hb : b ∈ (looped f id args).reversePostorder) (hdominates : f.dominates d b = true) :
  (looped f id args).dominates d b = true
  := by
  rw [Function.dominates_iff] at hdominates ⊢
  rcases hdominates with rfl | ⟨-, hnot⟩
  · exact .inl rfl
  · exact .inr ⟨hb, fun hreaches => hnot (h.reaches hreaches)⟩

/-- Paths on which a slot is not stored to may start anew at the entry. -/
theorem reachesUnstored {slot : SlotId} (hd : (looped f id args).ReachesUnstored slot d) :
  f.ReachesUnstored slot d
  := by
  induction hd with
  | entry => exact .entry
  | step _ hnot hnext ih =>
    rcases h.mem_successors hnext with ⟨rfl, -⟩ | ⟨hnext, hne⟩
    · exact .entry
    · refine ih.step (fun hstores => hnot ?_) hnext
      rwa [Function.Stores, h.block_of_ne hne]

theorem loadsStored (hstored : f.LoadsStored) :
  (looped f id args).LoadsStored
  := by
  rintro d j i slot hi hloaded ⟨hreaches, hnot⟩
  by_cases hd : d = id
  · subst hd
    rw [h.instrs_self] at hi hnot
    have hlt := (List.getElem?_eq_some_iff.mp hi).1
    refine hstored d j i slot ?_ hloaded ⟨h.reachesUnstored hreaches, ?_⟩
    · rw [h.instrs, List.getElem?_append_left hlt]
      exact hi
    · rw [h.instrs, List.take_append_of_le_length (Nat.le_of_lt hlt)]
      exact hnot
  · rw [h.block_of_ne hd] at hi hnot
    exact hstored d j i slot hi hloaded ⟨h.reachesUnstored hreaches, hnot⟩

/-! ## Well-formedness -/

/-- The variables that the end of the block reads are read less often. -/
theorem useCount (v : VarId) :
  (looped f id args).useCount v + (f.block id).terminator.uses.count v = f.useCount v
  := by
  have hget : f.blocks[id]? = some (f.block id) := by simp [Function.block, h.lt]
  have htotal := total_map_modify (fun b => b.uses.count v)
    (fun b => { b with body := b.body.dropLast, terminator := .jump f.entry args }) hget
  have hnew : (⟨(f.block id).params, (f.block id).body.dropLast, .jump f.entry args⟩ : Block).uses.count v
      + (f.block id).terminator.uses.count v = (f.block id).uses.count v := by
    obtain ⟨position, hbody⟩ := h.body
    simp only [Block.uses, Block.instrs, hbody, List.dropLast_concat, List.map_append, List.map_cons,
      List.map_nil, List.flatMap_append, List.flatMap_cons, List.flatMap_nil, List.append_nil,
      List.count_append, Instr.uses, Terminator.uses]
  beta_reduce at htotal
  unfold Function.useCount looped Function.modifyBlock
  simp only
  omega

/-- The answer of the call is not read any more. -/
theorem not_mem_uses (hv : dst = some v) {b : Block} (hb : b ∈ (looped f id args).blocks) :
  v ∉ b.uses
  := by
  subst hv
  have hdirect := List.count_pos_iff.mpr (mem_uses_of_returnsDirectly h.direct)
  have hcount := h.useCount v
  have honce := h.readOnce v rfl
  exact useCount_eq_zero_iff.mp (by omega) b hb

theorem mem_defs (hv : v ∈ (f.block d).defs) (hne : dst ≠ some v) :
  v ∈ ((looped f id args).block d).defs
  := by
  by_cases hd : d = id
  · subst hd
    rw [Block.defs, h.instrs, List.filterMap_append, List.mem_append, List.mem_append] at hv
    rw [Block.defs, h.instrs_self, h.params, List.mem_append]
    rcases hv with hparam | hbefore | hcall
    · exact .inl hparam
    · exact .inr hbefore
    · obtain ⟨i, hi, hdef⟩ := List.mem_filterMap.mp hcall
      obtain rfl := List.mem_singleton.mp hi
      exact absurd hdef hne
  · rwa [h.block_of_ne hd]

theorem defs_sublist (d : BlockId) :
  ((looped f id args).block d).defs.Sublist (f.block d).defs
  := by
  by_cases hd : d = id
  · subst hd
    rw [Block.defs, Block.defs, h.instrs_self, h.params, h.instrs]
    apply (List.Sublist.refl _).append
    exact (List.sublist_append_left _ _).filterMap _
  · rw [h.block_of_ne hd]

theorem isKnown (hd : d ∈ (looped f id args).reversePostorder) (hne : dst ≠ some v) (hv : IsKnown f d v) :
  IsKnown (looped f id args) d v
  := by
  rcases hv with hparam | ⟨other, hother, hdominates, hdef⟩
  · exact .inl (h.params d ▸ hparam)
  · exact .inr ⟨other, hother, h.dominates hd hdominates, h.mem_defs hdef hne⟩

theorem scoped_looped (hd : d ∈ (looped f id args).reversePostorder)
    (hb : (looped f id args).block d ∈ (looped f id args).blocks) :
  Scoped (IsKnown (looped f id args) d) ((looped f id args).block d).instrs
    ((looped f id args).block d).terminator.uses
  := by
  have hscoped := h.ssa.scoped (h.mem_reversePostorder hd)
  have hunread : ∀ v, (∃ i ∈ ((looped f id args).block d).instrs, v ∈ i.uses)
      ∨ v ∈ ((looped f id args).block d).terminator.uses → dst ≠ some v := by
    intro v hv hdst
    apply h.not_mem_uses hdst hb
    rw [Block.uses, List.mem_append]
    exact hv.imp_left List.mem_flatMap.mpr
  suffices hold : Scoped (IsKnown f d) ((looped f id args).block d).instrs
      ((looped f id args).block d).terminator.uses by
    exact hold.mono_of_uses fun v hv hknown => h.isKnown hd (hunread v hv) hknown
  by_cases heq : d = id
  · subst heq
    rw [h.instrs, scoped_append] at hscoped
    obtain ⟨hbefore, hcall, -⟩ := hscoped
    rw [h.instrs_self, h.block_self]
    rw [scoped_iff] at hbefore ⊢
    exact ⟨hbefore.1, hcall⟩
  · rwa [h.block_of_ne heq]

theorem isSsa :
  (looped f id args).IsSsa
  := by
  obtain ⟨⟨entry, hentry, hparams⟩, hnodup, -⟩ := Function.isSsa_iff.mp h.ssa
  obtain ⟨hlt, hlength, -⟩ := Verify.jump_eq_ok.mp h.jump
  rw [Function.isSsa_iff]
  refine ⟨?_, ?_, ?_, ?_, ?_⟩
  · refine ⟨(looped f id args).block f.entry, ?_, ?_⟩
    · have hlt' : f.entry < (looped f id args).blocks.length := by rwa [length]
      change (looped f id args).blocks[f.entry]? = _
      simp [Function.block, hlt']
    · rw [h.params]
      change (f.block f.entry).params = f.params
      simpa [Function.block, hentry] using hparams
  · rw [nodup_defs_iff_blocks] at hnodup ⊢
    constructor
    · exact fun d => (hnodup.1 d).sublist (h.defs_sublist d)
    · intro d d' v hv hv'
      exact hnodup.2 d d' v ((h.defs_sublist d).subset hv) ((h.defs_sublist d').subset hv')
  · intro d b target args' hb hterminator
    obtain ⟨hold, rfl⟩ := getElem?_block hb
    rw [length, h.params]
    by_cases hd : d = id
    · subst hd
      rw [h.block_self] at hterminator
      cases hterminator
      exact ⟨hlt, hlength⟩
    · rw [h.block_of_ne hd] at hterminator
      exact h.ssa.jump hold hterminator
  · intro d b test thenBlock elseBlock hb hterminator next hnext
    obtain ⟨hold, rfl⟩ := getElem?_block hb
    rw [length, h.params]
    by_cases hd : d = id
    · subst hd
      rw [h.block_self] at hterminator
      cases hterminator
    · rw [h.block_of_ne hd] at hterminator
      exact h.ssa.branch hold hterminator next hnext
  · intro d hd b hb
    obtain ⟨-, rfl⟩ := getElem?_block hb
    exact h.scoped_looped hd (List.mem_of_getElem? hb)

end

theorem extends_looped (f : Function) (id : BlockId) (args : List VarId) :
  f.Extends (looped f id args)
  := ⟨rfl, List.prefix_rfl⟩

theorem terminator (h : ReturnsCall f id before dst args) {t : Terminator}
    (ht : Verify.terminator f t = .ok ()) :
  Verify.terminator (looped f id args) t = .ok ()
  := by
  have hkeeps : ∀ v, Verify.KeepsType f (looped f id args) v v := fun v => Verify.keeps_varType (extends_looped f id args) v
  have hrename := Verify.keeps_terminator_rename (f := f) (g := looped f id args) rfl (length f id args)
    h.params hkeeps (t := t) (fun v => v) fun v _ => hkeeps v
  have hid : t.mapUses (fun v => v) = t := by cases t <;> simp [Terminator.mapUses]
  rw [hid] at hrename
  exact hrename () ht

theorem verify (h : ReturnsCall f id before dst args) :
  (looped f id args).verify = .ok ()
  := by
  apply Function.verify_of_blocks h.isSsa
  · have hshape : Verify.shape (looped f id args) = Verify.shape f := by
      unfold Verify.shape
      rw [length, h.params]
      rfl
    rw [hshape]
    exact (Function.verify_eq_ok.mp h.verified).1
  · exact fun d v hv => Verify.lt_of_mem_defs h.verified ((h.defs_sublist d).subset hv)
  · intro d i hi
    exact Verify.keeps_instr (extends_looped f id args) i () (Verify.instr_of_mem h.verified (h.instrs_subset hi))
  · intro d hd
    rw [length] at hd
    apply h.terminator
    by_cases heq : d = id
    · subst heq
      rw [h.block_self]
      exact h.jump
    · rw [h.block_of_ne heq]
      exact Verify.terminator_of_lt h.verified hd

end ReturnsCall

end TailCall

end FormCompiler.Flow
