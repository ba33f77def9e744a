import FormCompiler.Optimize.DeadStore
import FormCompiler.Proofs.Flow.Rename
import FormCompiler.Proofs.Flow.Lockstep

/-!
# Dead stores

Without its dead stores a function runs through the same blocks as before. At any point only slots
that will not be read before they are stored to as a whole may hold something else: those that the
function never loads from, and in the middle of a block those whose next access there is a store.
`SameExcept` says this of two states, and `agree_body` that a body keeps it.
-/

namespace FormCompiler.Flow

namespace DeadStore

/-- Whether a line is dropped in front of a rest. -/
def isDropped (loaded : List SlotId) (line : Line) (rest : List Line) : Bool :=
  isOverwritten (body loaded rest).1 line.instr || isUnread loaded line.instr

theorem body_cons (loaded : List SlotId) (line : Line) (rest : List Line) :
  body loaded (line :: rest) = (overwrittenBefore (body loaded rest).1 line.instr,
    if isDropped loaded line rest then (body loaded rest).2 else line :: (body loaded rest).2)
  := rfl

/-- Only writes to slots are dropped. -/
theorem exists_writtenSlot? {loaded : List SlotId} {line : Line} {rest : List Line}
    (h : isDropped loaded line rest = true) :
  ∃ slot, line.instr.writtenSlot? = some slot
  := by
  simp only [isDropped, Bool.or_eq_true] at h
  rcases h with h | h
  · unfold isOverwritten at h
    split at h
    · next slot _ heq => exact ⟨slot, by rw [heq]; rfl⟩
    · cases h
  · cases hwritten : line.instr.writtenSlot? with
    | none => simp [isUnread, hwritten] at h
    | some slot => exact ⟨slot, rfl⟩

theorem def?_of_writtenSlot? {i : Instr} {slot : SlotId} (h : i.writtenSlot? = some slot) :
  i.def? = none
  := by
  cases i <;> first | rfl | cases h

theorem subset_body (loaded : List SlotId) (lines : List Line) :
  (body loaded lines).2 ⊆ lines
  := by
  induction lines with
  | nil => exact List.Subset.refl _
  | cons line rest ih =>
    rw [body_cons]
    simp only
    split
    · exact List.subset_cons_of_subset _ ih
    · exact List.cons_subset_cons _ ih

theorem filterMap_def?_body (loaded : List SlotId) (lines : List Line) :
  ((body loaded lines).2.map (·.instr)).filterMap Instr.def? = (lines.map (·.instr)).filterMap Instr.def?
  := by
  induction lines with
  | nil => rfl
  | cons line rest ih =>
    rw [body_cons]
    simp only
    split
    · next hdropped =>
      obtain ⟨slot, hslot⟩ := exists_writtenSlot? hdropped
      rw [ih, List.map_cons, List.filterMap_cons, def?_of_writtenSlot? hslot]
    · simp only [List.map_cons, List.filterMap_cons, ih]

theorem scoped_body (loaded : List SlotId) {lines : List Line} {known : VarId → Prop}
    {last : List VarId} (h : Scoped known (lines.map (·.instr)) last) :
  Scoped known ((body loaded lines).2.map (·.instr)) last
  := by
  induction lines generalizing known with
  | nil => exact h
  | cons line rest ih =>
    obtain ⟨huses, hrest⟩ := h
    rw [body_cons]
    simp only
    split
    · next hdropped =>
      obtain ⟨slot, hslot⟩ := exists_writtenSlot? hdropped
      refine (ih hrest).mono fun v hv => hv.resolve_right ?_
      rw [def?_of_writtenSlot? hslot]
      exact Option.some_ne_none v ∘ Eq.symm
    · exact ⟨huses, ih hrest⟩

/-! ## Well-formedness -/

theorem block_eliminateDeadStores (f : Function) (id : BlockId) :
  (eliminateDeadStores f).2.block id
    = { f.block id with body := (body (loadedSlots f) (f.block id).body).2 }
  := by
  simp only [eliminateDeadStores, Pass.onBlocks, Function.block, List.getD_eq_getElem?_getD,
    List.map_map, List.getElem?_map]
  cases f.blocks[id]? with
  | none => rfl
  | some b => rfl

theorem instrs_eliminateDeadStores (f : Function) (id : BlockId) :
  ((eliminateDeadStores f).2.block id).instrs
    = (body (loadedSlots f) (f.block id).body).2.map (·.instr)
  := by
  rw [block_eliminateDeadStores]
  rfl

theorem sameShape_eliminateDeadStores (f : Function) :
  SameShape f (eliminateDeadStores f).2
  where
  entry := rfl
  params := rfl
  result := rfl
  loops := rfl
  length := by simp [eliminateDeadStores, Pass.onBlocks]
  blockParams id := by rw [block_eliminateDeadStores]
  terminator id := by rw [block_eliminateDeadStores]

theorem verify_eliminateDeadStores {f : Function} (hf : f.verify = .ok ()) :
  (eliminateDeadStores f).2.verify = .ok ()
  := by
  have hshape := sameShape_eliminateDeadStores f
  have hssa : (eliminateDeadStores f).2.IsSsa := by
    refine hshape.isSsa_of_scoped (Function.isSsa_of_verify hf) (fun id => ?_) fun id known h => ?_
    · rw [Block.defs, Block.defs, instrs_eliminateDeadStores, hshape.blockParams, filterMap_def?_body]
      rfl
    · rw [instrs_eliminateDeadStores, hshape.terminator]
      exact scoped_body _ h
  refine Function.verify_of_sameShape hf hssa hshape ⟨rfl, List.prefix_rfl⟩ fun id i hi => .inl ?_
  rw [instrs_eliminateDeadStores] at hi
  obtain ⟨line, hline, rfl⟩ := List.mem_map.mp hi
  exact List.mem_map_of_mem (subset_body _ _ hline)

/-! ## Runs -/

/-- Two states differ only in some slots, and in slots that are never loaded from. -/
structure SameExcept (loaded differing : List SlotId) (s t : State) : Prop where
  vars : s.vars = t.vars
  trace : s.store.trace = t.store.trace
  slots : ∀ slot ∈ loaded, slot ∉ differing → s.store.slots slot = t.store.slots slot

section

variable {W : World} {calls : Caller} {type : VarId → ValueType} {loaded differing : List SlotId}
  {s t : State}
variable {overwritten : List SlotId}

theorem mem_overwrittenBefore {i : Instr} {slot : SlotId} (h : slot ∈ overwrittenBefore overwritten i) :
  (slot ∈ overwritten ∧ i.readSlot? ≠ some slot) ∨ ∃ v, i = .store slot v
  := by
  unfold overwrittenBefore at h
  split at h
  · next other v =>
    rcases List.mem_cons.mp h with rfl | h
    · exact .inr ⟨v, rfl⟩
    · exact .inl ⟨h, nofun⟩
  · split at h
    · next other heq =>
      obtain ⟨hmem, hne⟩ := List.mem_filter.mp h
      refine .inl ⟨hmem, ?_⟩
      rw [heq]
      rintro ⟨⟩
      simp at hne
    · next heq => exact .inl ⟨h, by rw [heq]; nofun⟩

/-- An instruction that is kept does the same in both states, and loads the same. -/
theorem SameExcept.act (W : World) (calls : Caller) (type : VarId → ValueType) {i : Instr}
    (h : SameExcept loaded (overwrittenBefore overwritten i) s t)
    (hload : ∀ slot, loadedSlot? i = some slot → slot ∈ loaded) (hunread : isUnread loaded i = false) :
  Agree (fun a b : Val × Store => a.1 = b.1
      ∧ SameExcept loaded overwritten ⟨setVar s.vars i.def? a.1, a.2⟩ ⟨setVar t.vars i.def? b.1, b.2⟩)
    (i.act W calls type s.vars s.store) (i.act W calls type t.vars t.store)
  := by
  obtain ⟨hvars, htrace, hslots⟩ := h
  obtain ⟨svars, sslots, strace⟩ := s
  obtain ⟨tvars, tslots, ttrace⟩ := t
  simp only at hvars htrace hslots
  subst hvars htrace
  -- What an instruction reads is not about to be overwritten.
  have hread : ∀ slot, i.readSlot? = some slot → slot ∈ loaded → sslots slot = tslots slot := by
    intro slot hslot hmem
    refine hslots slot hmem fun hover => ?_
    rcases mem_overwrittenBefore hover with ⟨-, hne⟩ | ⟨v, rfl⟩
    · exact hne hslot
    · cases hslot
  have hrest : ∀ slot ∈ loaded, slot ∉ overwritten → (∀ v, i ≠ .store slot v) →
      sslots slot = tslots slot := by
    intro slot hmem hnot hne
    refine hslots slot hmem fun hover => ?_
    rcases mem_overwrittenBefore hover with ⟨hover, -⟩ | ⟨v, rfl⟩
    · exact hnot hover
    · exact hne v rfl
  have hsame : ∀ (x : Val) (vars : VarId → Val) (trace : List Event), (∀ slot v, i ≠ .store slot v) →
      SameExcept loaded overwritten ⟨setVar vars i.def? x, ⟨sslots, trace⟩⟩
        ⟨setVar vars i.def? x, ⟨tslots, trace⟩⟩ :=
    fun x vars trace hne => ⟨rfl, rfl, fun slot hmem hnot => hrest slot hmem hnot (hne slot)⟩
  have hwritten : ∀ slot, i.writtenSlot? = some slot → slot ∈ loaded := by
    intro slot hslot
    simpa [isUnread, hslot] using hunread
  have hupdate : ∀ slot x, i.writtenSlot? = some slot →
      SameExcept loaded overwritten ⟨svars, ⟨Function.update sslots slot x, strace⟩⟩
        ⟨svars, ⟨Function.update tslots slot x, strace⟩⟩ := by
    intro slot x hslot
    refine ⟨rfl, rfl, fun other hmem hnot => ?_⟩
    by_cases heq : other = slot
    · subst heq
      simp
    · simp only [Function.update_of_ne heq]
      refine hrest other hmem hnot fun v hstore => heq ?_
      subst hstore
      exact Option.some.inj hslot
  cases i with
  | set dst value =>
    simp only [Instr.act]
    cases value.eval W (type dst) svars with
    | none => rfl
    | some x => exact ⟨_, rfl, rfl, hsame x svars strace (by simp)⟩
  | call dst callee args convention isTail =>
    simp only [Instr.act]
    cases calls strace callee convention (args.map svars) with
    | error stop => rfl
    | ok result => exact ⟨_, rfl, rfl, hsame result.2 svars result.1 (by simp)⟩
  | boundsCheck index length =>
    simp only [Instr.act]
    cases (svars index).isBelow length with
    | false => rfl
    | true => exact ⟨_, rfl, rfl, hsame .nothing svars strace (by simp)⟩
  | binaryLanes dst op lhs rhs =>
    simp only [Instr.act]
    cases op.mayTrap && (svars rhs).lanes.any Val.isZero with
    | true => rfl
    | false => exact ⟨_, rfl, rfl, hsame _ svars strace (by simp)⟩
  | load dst slot | loadElement dst slot index | loadLanes dst slot start =>
    have heq := hread slot rfl (hload slot rfl)
    simp only [Instr.act, heq]
    exact ⟨_, rfl, rfl, hsame _ svars strace (by simp)⟩
  | store slot value => exact ⟨_, rfl, rfl, hupdate slot (svars value) rfl⟩
  | storeElement slot index value | storeLanes slot start value =>
    have heq := hread slot rfl (hwritten slot rfl)
    simp only [Instr.act, heq]
    exact ⟨_, rfl, rfl, hupdate slot _ rfl⟩
  | loadGlobal | makeArray | makeTuple | extract | alloc | free | release =>
    exact ⟨_, rfl, rfl, hsame _ svars _ (by simp)⟩

/-- A write that is dropped only changes slots that may differ. -/
theorem SameExcept.act_dropped {line : Line} {rest : List Line}
    (h : SameExcept loaded (overwrittenBefore (body loaded rest).1 line.instr) s t)
    (hdropped : isDropped loaded line rest = true) :
  ∃ after, line.instr.act W calls type s.vars s.store = .ok (.nothing, after)
    ∧ SameExcept loaded (body loaded rest).1 ⟨s.vars, after⟩ t
  := by
  obtain ⟨slot, hslot⟩ := exists_writtenSlot? hdropped
  have hdead : slot ∈ loaded → ∃ v, line.instr = .store slot v ∧ slot ∈ (body loaded rest).1 := by
    intro hmem
    simp only [isDropped, Bool.or_eq_true] at hdropped
    rcases hdropped with hover | hunread
    · unfold isOverwritten at hover
      split at hover
      · next other v heq =>
        rw [heq] at hslot
        obtain rfl := Option.some.inj hslot
        exact ⟨v, heq, by simpa using hover⟩
      · cases hover
    · simp [isUnread, hslot, hmem] at hunread
  have hafter : ∀ other ∈ overwrittenBefore (body loaded rest).1 line.instr, other ∈ loaded →
      other ∈ (body loaded rest).1 := by
    intro other hother hmem
    rcases mem_overwrittenBefore hother with ⟨hover, -⟩ | ⟨v, hstore⟩
    · exact hover
    · rw [hstore] at hslot
      obtain rfl := Option.some.inj hslot
      exact (hdead hmem).choose_spec.2
  have hset : ∀ x, SameExcept loaded (body loaded rest).1 ⟨s.vars, s.store.set slot x⟩ t := by
    intro x
    refine ⟨h.vars, h.trace, fun other hother hnot => ?_⟩
    have hne : other ≠ slot := by
      rintro rfl
      exact hnot (hdead hother).choose_spec.2
    simp only [Store.set, Function.update_of_ne hne]
    exact h.slots other hother fun hmem => hnot (hafter other hmem hother)
  cases hinstr : line.instr with
  | store other value | storeElement other index value | storeLanes other start value =>
    rw [hinstr] at hslot
    obtain rfl := Option.some.inj hslot
    exact ⟨_, rfl, hset _⟩
  | set | call | load | loadGlobal | loadElement | boundsCheck | makeArray | makeTuple | extract | alloc
  | free | release | loadLanes | binaryLanes =>
    rw [hinstr] at hslot
    cases hslot

/-- A body without its dead stores runs as before, and loads the same. -/
theorem agree_body (W : World) (calls : Caller) (type : VarId → ValueType) {lines : List Line} (h : SameExcept loaded (body loaded lines).1 s t)
    (hload : ∀ line ∈ lines, ∀ slot, loadedSlot? line.instr = some slot → slot ∈ loaded) :
  Agree (SameExcept loaded []) (runAll W calls type (lines.map (·.instr)) s)
      (runAll W calls type ((body loaded lines).2.map (·.instr)) t)
    ∧ loadedBy W calls type (lines.map (·.instr)) s
      = loadedBy W calls type ((body loaded lines).2.map (·.instr)) t
  := by
  induction lines generalizing s t with
  | nil => exact ⟨⟨t, rfl, h⟩, rfl⟩
  | cons line rest ih =>
    have hrest : ∀ line ∈ rest, ∀ slot, loadedSlot? line.instr = some slot → slot ∈ loaded :=
      fun other hother => hload other (List.mem_cons_of_mem _ hother)
    rw [body_cons] at h ⊢
    simp only at h ⊢
    cases hdropped : isDropped loaded line rest with
    | true =>
      obtain ⟨after, hact, hafter⟩ := h.act_dropped hdropped
      obtain ⟨slot, hslot⟩ := exists_writtenSlot? hdropped
      have hload : line.instr.isLoad = false := by
        cases hinstr : line.instr <;> rw [hinstr] at hslot <;> first | rfl | cases hslot
      have hrun : line.instr.run W calls type s = .ok ⟨s.vars, after⟩ := by
        rw [Instr.run_eq_ok]
        refine ⟨.nothing, after, hact, ?_⟩
        rw [def?_of_writtenSlot? hslot, setVar_none]
      simp only [if_true, List.map_cons, runAll_cons, hrun, loadedBy, hact, hload,
        def?_of_writtenSlot? hslot, setVar_none, Bool.false_eq_true, if_false, List.nil_append]
      exact ih hafter hrest
    | false =>
      have hunread : isUnread loaded line.instr = false := by
        simp only [isDropped, Bool.or_eq_false_iff] at hdropped
        exact hdropped.2
      have hact := h.act W calls type (hload line (by simp)) hunread
      simp only [Bool.false_eq_true, if_false, List.map_cons, runAll_cons, loadedBy]
      constructor
      · refine Agree.bind ?_ fun s' t' hst => (ih hst hrest).1
        unfold Instr.run
        refine hact.bind ?_
        rintro ⟨x, after⟩ ⟨y, after'⟩ ⟨-, hsame⟩
        exact ⟨_, rfl, hsame⟩
      · cases hresult : line.instr.act W calls type s.vars s.store with
        | error stop =>
          rw [hresult] at hact
          rw [show line.instr.act W calls type t.vars t.store = .error stop from hact]
        | ok result =>
          rw [hresult] at hact
          obtain ⟨⟨y, after'⟩, hresult', hval, hsame⟩ := hact
          obtain ⟨x, after⟩ := result
          obtain rfl : x = y := hval
          rw [hresult']
          exact congrArg _ (ih hsame hrest).2

end

/-! ## Functions -/

/-- The same block, with states that may differ in slots that are never loaded from. -/
def Related (f : Function) (p q : Point) : Prop :=
  p.1 = q.1 ∧ SameExcept (loadedSlots f) [] p.2 q.2

section

variable {f : Function} {W : World} {calls : Caller} {p q : Point}

theorem mem_loadedSlots {id : BlockId} {line : Line} (hline : line ∈ (f.block id).body) {slot : SlotId}
    (hslot : loadedSlot? line.instr = some slot) :
  slot ∈ loadedSlots f
  := by
  have hlt : id < f.blocks.length := by
    by_contra hge
    simp [Function.block, hge, Block.empty] at hline
  have hblock : f.block id ∈ f.blocks := by simp [Function.block, hlt]
  refine List.mem_flatMap.mpr ⟨_, hblock, List.mem_filterMap.mpr ⟨line.instr, ?_, hslot⟩⟩
  exact List.mem_map_of_mem hline

theorem Related.body (W : World) (calls : Caller) (h : Related f p q) :
  Agree (SameExcept (loadedSlots f) []) (f.runBody W calls p)
      ((eliminateDeadStores f).2.runBody W calls q)
    ∧ loadedBy W calls f.varType (f.block p.1).instrs p.2
      = loadedBy W calls f.varType ((eliminateDeadStores f).2.block q.1).instrs q.2
  := by
  obtain ⟨hid, hst⟩ := h
  have hsame : SameExcept (loadedSlots f) (DeadStore.body (loadedSlots f) (f.block p.1).body).1 p.2 q.2 :=
    ⟨hst.vars, hst.trace, fun slot hslot _ => hst.slots slot hslot List.not_mem_nil⟩
  have hbody := agree_body W calls f.varType hsame fun line hline slot =>
    mem_loadedSlots hline
  unfold Function.runBody
  rw [← hid, instrs_eliminateDeadStores]
  exact hbody

/-- A block without its dead stores is left in the same way. -/
theorem Related.visibleStep (W : World) (calls : Caller) (h : Related f p q) :
  Agree (Related f) (f.visibleStep W calls p) ((eliminateDeadStores f).2.visibleStep W calls q)
  := by
  have hbody := (h.body W calls).1
  have hshape := sameShape_eliminateDeadStores f
  unfold Function.visibleStep Function.step
  unfold Function.runBody at hbody
  cases hs : runAll W calls f.varType (f.block p.1).instrs p.2 with
  | error stop =>
    rw [hs] at hbody
    rw [show runAll W calls _ ((eliminateDeadStores f).2.block q.1).instrs q.2 = .error stop from hbody]
    rfl
  | ok s =>
    rw [hs] at hbody
    obtain ⟨t, ht, hst⟩ := hbody
    rw [ht, hshape.terminator, ← h.1]
    change Agree _ (((f.block p.1).terminator.run f s).mapError _)
      (((f.block p.1).terminator.run (eliminateDeadStores f).2 t).mapError _)
    cases (f.block p.1).terminator with
    | ret value =>
      simp only [Terminator.run, Except.mapError, Stop.withoutSlots, hst.vars, hst.trace]
      rfl
    | unreachable =>
      simp only [Terminator.run, Except.mapError, Stop.withoutSlots, hst.trace]
      rfl
    | branch test thenBlock elseBlock =>
      simp only [Terminator.run, Except.mapError, hst.vars]
      exact ⟨_, rfl, rfl, hst⟩
    | jump target args =>
      simp only [Terminator.run, Except.mapError, hst.vars, hshape.blockParams]
      exact ⟨_, rfl, rfl, rfl, hst.trace, hst.slots⟩

theorem Related.loads (h : Related f p q) (n : Nat) :
  f.loads W calls n p = (eliminateDeadStores f).2.loads W calls n q
  := by
  induction n generalizing p q with
  | zero => rfl
  | succ n ih =>
    have hbody := (h.body W calls).2
    have hstep := h.visibleStep W calls
    rw [Function.loads, Function.loads]
    refine congr (congrArg _ hbody) ?_
    unfold Function.visibleStep at hstep
    cases hp : f.step W calls p with
    | error stop =>
      rw [hp] at hstep
      cases hq : (eliminateDeadStores f).2.step W calls q with
      | error stop' => rfl
      | ok q' =>
        rw [hq] at hstep
        cases hstep
    | ok p' =>
      rw [hp] at hstep
      obtain ⟨q', hq', hrelated⟩ := hstep
      cases hq : (eliminateDeadStores f).2.step W calls q with
      | error stop =>
        rw [hq] at hq'
        cases hq'
      | ok q'' =>
        rw [hq] at hq'
        obtain rfl := Except.ok.inj hq'
        exact ih hrelated

end

end DeadStore

/--
Without its dead stores a function is still well-formed. In every world and whatever it starts with, it
is seen to behave as before, and it loads the same values from its slots.
-/
theorem sameVisibly_eliminateDeadStores {f : Function} (hf : f.verify = .ok ()) :
  (eliminateDeadStores f).2.verify = .ok ()
    ∧ ∀ W, SameVisibly W f (eliminateDeadStores f).2
      ∧ ∀ args vars store n, f.loads W W.caller n (f.startPoint args vars store)
        = (eliminateDeadStores f).2.loads W W.caller n
          ((eliminateDeadStores f).2.startPoint args vars store)
  := by
  refine ⟨DeadStore.verify_eliminateDeadStores hf, fun W => ?_⟩
  have hstart : ∀ args vars store, DeadStore.Related f (f.startPoint args vars store)
      ((eliminateDeadStores f).2.startPoint args vars store) :=
    fun args vars store => ⟨rfl, rfl, rfl, fun _ _ _ => rfl⟩
  constructor
  · intro args vars store
    have hmeets : Meets (f.visibleStep W W.caller)
        ((eliminateDeadStores f).2.visibleStep W W.caller) (DeadStore.Related f) :=
      .of_agree (fun hpq => hpq.2.trace) fun hpq => hpq.visibleStep W W.caller
    exact .of_meets hmeets (f.keepsTrace_visibleStep W W.remembers_caller)
      ((eliminateDeadStores f).2.keepsTrace_visibleStep W W.remembers_caller) (hstart args vars store)
  · exact fun args vars store n => (hstart args vars store).loads n

/-- Stores to a slot twice before it is loaded, and to another one that is never loaded. -/
def storesTwice : Function where
  name := "twice"
  params := [0]
  result := .int 64
  blocks :=
    [ ⟨[0],
        [ ⟨.store 0 0, none⟩, ⟨.set 1 (.const (.int 1)), none⟩, ⟨.store 0 1, none⟩,
          ⟨.store 1 0, none⟩, ⟨.load 2 0, none⟩ ],
        .ret (some 2)⟩ ]
  entry := 0
  varTypes := List.replicate 3 (.int 64)
  slots := List.replicate 2 ⟨none, .int 64⟩
  loops := []
  flags := .none

theorem sameVisibly_eliminateDeadStores_storesTwice :
  storesTwice.verify = .ok () ∧ (eliminateDeadStores storesTwice).1 = 2
    ∧ (eliminateDeadStores storesTwice).2.verify = .ok ()
    ∧ ∀ W, SameVisibly W storesTwice (eliminateDeadStores storesTwice).2
      ∧ ∀ args vars store n, storesTwice.loads W W.caller n (storesTwice.startPoint args vars store)
        = (eliminateDeadStores storesTwice).2.loads W W.caller n
          ((eliminateDeadStores storesTwice).2.startPoint args vars store)
  := ⟨by decide +kernel, by decide +kernel, sameVisibly_eliminateDeadStores (by decide +kernel)⟩

end FormCompiler.Flow
