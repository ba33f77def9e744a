import FormCompiler.Flow.Read
import FormCompiler.Flow.Verify
import Mathlib

/-!
# What well-formed functions satisfy

`Function.verify` runs its checks one after another. Here its success is taken apart:
`Function.verify_eq_ok` says that all four checks succeeded, and the lemmas before it what each of
them gives, as statements about the function. No check looks up a block that is not there, so that nothing but the
end of a range of lanes can stop them (`Function.verify?_eq_some`).
-/

namespace FormCompiler.Flow

variable {ε α β : Type}

/-! ## Tables -/

theorem mem_of_lookup_eq_some [BEq α] [LawfulBEq α] {l : List (α × β)} {a : α} {b : β}
    (h : l.lookup a = some b) :
  (a, b) ∈ l
  := by
  obtain ⟨l₁, l₂, rfl, -⟩ := List.lookup_eq_some_iff.mp h
  simp

/-- What a table without repeated keys holds is found. -/
theorem lookup_eq_some_of_mem [DecidableEq α] {l : List (α × β)} (h : (l.map (·.1)).Nodup) {p : α × β}
    (hp : p ∈ l) :
  l.lookup p.1 = some p.2
  := by
  induction l with
  | nil => simp at hp
  | cons first l ih =>
    rw [List.map_cons, List.nodup_cons] at h
    obtain ⟨hfirst, hrest⟩ := h
    rcases List.mem_cons.mp hp with rfl | hp
    · simp [List.lookup]
    · have hne : p.1 ≠ first.1 := by
        intro heq
        rw [← heq] at hfirst
        exact hfirst (List.mem_map_of_mem hp)
      rw [List.lookup_cons, beq_false_of_ne hne]
      exact ih hrest hp

/-! ## Checks in sequence -/

theorem bind_eq_ok {x : Except ε α} {f : α → Except ε β} {b : β} :
  (x >>= f) = .ok b ↔ ∃ a, x = .ok a ∧ f a = .ok b
  := by
  cases x with
  | error e | ok a => simp [bind, Except.bind]

/-- A check and what comes after it. -/
theorem check_bind_eq_ok {x : Except ε Unit} {f : Unit → Except ε β} {b : β} :
  (x >>= f) = .ok b ↔ x = .ok () ∧ f () = .ok b
  := by
  rw [bind_eq_ok]
  constructor
  · rintro ⟨⟨⟩, hx, hf⟩
    exact ⟨hx, hf⟩
  · rintro ⟨hx, hf⟩
    exact ⟨(), hx, hf⟩

theorem mapError_eq_ok {ε' : Type} {x : Except ε α} {f : ε → ε'} {a : α} :
  x.mapError f = .ok a ↔ x = .ok a
  := by
  cases x with
  | error e => simp [Except.mapError]
  | ok a => simp [Except.mapError]

/-- A list of checks succeeds exactly if each of them does. -/
theorem forM_eq_ok {items : List α} {check : α → Except ε Unit} :
  items.forM check = .ok () ↔ ∀ item ∈ items, check item = .ok ()
  := by
  induction items with
  | nil => simp [pure, Except.pure]
  | cons item items ih =>
    rw [show (item :: items).forM check = (check item >>= fun _ => items.forM check) from rfl,
      bind_eq_ok, List.forall_mem_cons]
    constructor
    · rintro ⟨⟨⟩, hitem, hitems⟩
      exact ⟨hitem, ih.mp hitems⟩
    · rintro ⟨hitem, hitems⟩
      exact ⟨(), hitem, ih.mpr hitems⟩

namespace Verify

variable {f : Function} {t : ValueType}

@[simp]
theorem ensure_eq_ok {condition : Bool} {fault : VerifyFault} :
  ensure condition fault = .ok () ↔ condition = true
  := by
  unfold ensure
  split <;> simp_all

theorem varType_eq_ok {v : VarId} :
  varType f v = .ok t ↔ f.varTypes[v]? = some t
  := by
  unfold varType
  split <;> simp_all

theorem expectThat_eq_ok {v : VarId} {wanted : Wanted} {p : ValueType → Bool} :
  expectThat f v wanted p = .ok () ↔ ∃ t, f.varTypes[v]? = some t ∧ p t = true
  := by
  simp only [expectThat, bind_eq_ok, varType_eq_ok, ensure_eq_ok]

theorem expect_eq_ok {v : VarId} :
  expect f v t = .ok () ↔ f.varTypes[v]? = some t
  := by
  simp [expect, expectThat_eq_ok]

theorem same_eq_ok {a b : VarId} :
  same f a b = .ok () ↔ ∃ t, f.varTypes[a]? = some t ∧ f.varTypes[b]? = some t
  := by
  simp only [same, bind_eq_ok, varType_eq_ok, ensure_eq_ok, decide_eq_true_eq]
  constructor
  · rintro ⟨t, ha, _, hb, rfl⟩
    exact ⟨t, ha, hb⟩
  · rintro ⟨t, ha, hb⟩
    exact ⟨t, ha, t, hb, rfl⟩

theorem slotType_eq_ok {s : SlotId} :
  slotType f s = .ok t ↔ ∃ slot, f.slots[s]? = some slot ∧ slot.type = t
  := by
  unfold slotType
  split <;> simp_all

/-- The slot that holds an array has the type of the array. -/
theorem arrayIn_eq_ok {s : SlotId} {element : ValueType} {length : Nat} :
  arrayIn f s = .ok (element, length)
    ↔ ∃ slot, f.slots[s]? = some slot ∧ slot.type = .array element length
  := by
  simp only [arrayIn, bind_eq_ok, slotType_eq_ok]
  constructor
  · rintro ⟨_, ⟨slot, hslot, rfl⟩, h⟩
    refine ⟨slot, hslot, ?_⟩
    cases htype : slot.type <;>
      simp_all [ValueType.array?, pure, Except.pure, throw, throwThe, MonadExceptOf.throw]
  · rintro ⟨slot, hslot, htype⟩
    refine ⟨_, ⟨slot, hslot, rfl⟩, ?_⟩
    simp [htype, ValueType.array?, pure, Except.pure]

/-- A jump passes arguments of the types of the parameters. -/
theorem jump_eq_ok {target : BlockId} {args : List VarId} :
  terminator f (.jump target args) = .ok () ↔ target < f.blocks.length
    ∧ (f.block target).params.length = args.length
    ∧ ∀ pair ∈ args.zip (f.block target).params,
      ∃ t, f.varTypes[pair.1]? = some t ∧ f.varTypes[pair.2]? = some t
  := by
  simp only [terminator, check_bind_eq_ok, ensure_eq_ok, decide_eq_true_eq, forM_eq_ok, same_eq_ok]

/-- The targets of a branch take no parameters. -/
theorem branch_eq_ok {test : VarId} {thenBlock elseBlock : BlockId} :
  terminator f (.branch test thenBlock elseBlock) = .ok () ↔ f.varTypes[test]? = some .bool
    ∧ ∀ next ∈ [thenBlock, elseBlock], next < f.blocks.length ∧ (f.block next).params = []
  := by
  simp only [terminator, check_bind_eq_ok, expect_eq_ok, ensure_eq_ok, decide_eq_true_eq,
    forM_eq_ok, List.isEmpty_iff]

theorem eachBlock_eq_ok {check : BlockId → Block → Result Unit} :
  eachBlock f check = .ok () ↔ ∀ id b, f.blocks[id]? = some b → check id b = .ok ()
  := by
  rw [eachBlock, forM_eq_ok]
  constructor
  · intro h id b hb
    exact mapError_eq_ok.mp (h (b, id) (List.mk_mem_zipIdx_iff_getElem?.mpr hb))
  · rintro h ⟨b, id⟩ hmem
    exact mapError_eq_ok.mpr (h id b (List.mk_mem_zipIdx_iff_getElem?.mp hmem))

/-- The entry of a function is one of its blocks, with the parameters of the function. -/
theorem entry_of_shape (h : shape f = .ok ()) :
  ∃ b, f.blocks[f.entry]? = some b ∧ b.params = f.params
  := by
  obtain ⟨⟨⟩, hentry, hrest⟩ := bind_eq_ok.mp h
  obtain ⟨⟨⟩, hparams, -⟩ := bind_eq_ok.mp hrest
  simp only [ensure_eq_ok, decide_eq_true_eq] at hentry hparams
  use f.blocks[f.entry], List.getElem?_eq_getElem hentry
  simpa [Function.block, hentry] using hparams

/-- The definitions that were checked have types, and none is twice or among the earlier ones. -/
theorem nodup_of_definitions {earlier : List VarId} {sites : List (VarId × Site)}
    (h : definitions f earlier sites = .ok ()) :
  (sites.map (·.1)).Nodup ∧ ∀ v ∈ sites.map (·.1), v < f.varTypes.length ∧ v ∉ earlier
  := by
  induction sites generalizing earlier with
  | nil => simp
  | cons site sites ih =>
    obtain ⟨v, site⟩ := site
    rw [definitions] at h
    split at h
    · simp [bind, Except.bind, throw, throwThe, MonadExceptOf.throw] at h
    · next hlt =>
      split at h
      · simp [bind, Except.bind, throw, throwThe, MonadExceptOf.throw] at h
      · next hnew =>
        obtain ⟨hnodup, hrest⟩ := ih (by simpa [bind, Except.bind, pure, Except.pure] using h)
        simp only [List.map_cons, List.nodup_cons, List.forall_mem_cons]
        refine ⟨⟨?_, hnodup⟩, ⟨by omega, by simpa using hnew⟩, ?_⟩
        · intro hmem
          exact (hrest v hmem).2 (by simp)
        · intro w hw
          obtain ⟨hlt', hnot⟩ := hrest w hw
          exact ⟨hlt', fun hmem => hnot (List.mem_cons_of_mem _ hmem)⟩

/-- The sites of a block are those of its definitions. -/
theorem map_fst_sites (id : BlockId) (b : Block) :
  (sites id b).map (·.1) = b.defs
  := by
  have hbody : ∀ (instrs : List Instr) (n : Nat),
      ((instrs.zipIdx n).filterMap fun p =>
        p.1.def?.map fun v => (v, (⟨id, some p.2⟩ : Site))).map (·.1) = instrs.filterMap Instr.def? := by
    intro instrs
    induction instrs with
    | nil => simp
    | cons i instrs ih =>
      intro n
      rw [List.zipIdx_cons, List.filterMap_cons, List.filterMap_cons]
      cases hdef : i.def? with
      | none | some v => simpa [hdef] using ih (n + 1)
  rw [sites, List.map_append, hbody, List.map_map, Block.defs]
  simp [Function.comp_def]

/-- The sites of a function are those of the definitions of its blocks. -/
theorem map_fst_allSites (f : Function) :
  (allSites f).map (·.1) = f.blocks.flatMap Block.defs
  := by
  rw [allSites, List.map_flatMap]
  conv_rhs => rw [← List.zipIdx_map_fst 0 f.blocks, List.flatMap_map]
  congr 1
  funext p
  apply map_fst_sites

end Verify

/-- A well-formed function passes all four checks. -/
theorem Function.verify_eq_ok {f : Function} :
  f.verify = .ok () ↔ Verify.shape f = .ok () ∧ Verify.definitions f [] (Verify.allSites f) = .ok () ∧
    (∀ (id : BlockId) b, f.blocks[id]? = some b → Verify.block f b = .ok ()) ∧
    ∀ (id : BlockId) b, f.blocks[id]? = some b → Verify.dominance f id b = .ok ()
  := by
  simp only [Function.verify, bind_eq_ok, mapError_eq_ok]
  constructor
  · rintro ⟨⟨⟩, hshape, ⟨⟩, hdefinitions, ⟨⟩, hblock, hdominance⟩
    exact ⟨hshape, hdefinitions, Verify.eachBlock_eq_ok.mp hblock,
      Verify.eachBlock_eq_ok.mp hdominance⟩
  · rintro ⟨hshape, hdefinitions, hblock, hdominance⟩
    exact ⟨(), hshape, (), hdefinitions, (), Verify.eachBlock_eq_ok.mpr hblock,
      Verify.eachBlock_eq_ok.mpr hdominance⟩

/-! ## Checks that are not stopped -/

namespace Verify

section

variable {ε ε' α β : Type}
variable {check : α → Stoppable ε Unit}

/-- What goes on after a check that is not stopped need only be known for its result. -/
theorem unstopped_bind {check : Except ε α} {next : α → Stoppable ε β} {next' : α → Except ε β}
    (h : ∀ a, check = .ok a → next a = unstopped (next' a)) :
  (unstopped check >>= next) = unstopped (check >>= next')
  := by
  cases check with
  | error e => rfl
  | ok a => exact h a rfl

theorem unstopped_forM {check' : α → Except ε Unit} {l : List α} (h : ∀ a ∈ l, check a = unstopped (check' a)) :
  l.forM check = unstopped (l.forM check')
  := by
  induction l with
  | nil => rfl
  | cons a l ih =>
    rw [List.forall_mem_cons] at h
    change (check a >>= fun _ => l.forM check) = _
    rw [h.1]
    exact unstopped_bind fun _ _ => ih h.2

/-- Checks that are all passed. -/
theorem forM_eq_unstopped {l : List α} (h : ∀ a ∈ l, check a = unstopped (.ok ())) :
  l.forM check = unstopped (.ok ())
  := (unstopped_forM h).trans (congrArg unstopped (forM_eq_ok.mpr fun _ _ => rfl))

theorem unstopped_adapt (check : Except ε α) (g : ε → ε') :
  (unstopped check).adapt g = unstopped (check.mapError g)
  := by
  cases check <;> rfl

theorem blockAt_eq {f : Function} {id : BlockId} (h : id < f.blocks.length) :
  (blockAt f id : Stoppable ε Block) = unstopped (.ok (f.block id))
  := by
  simp [blockAt, Function.block, List.getElem?_eq_getElem h]

end

variable {f : Function}

theorem shape?_eq :
  shape? f = unstopped (shape f)
  := by
  refine unstopped_bind fun _ hentry => ?_
  rw [ensure_eq_ok, decide_eq_true_eq] at hentry
  rw [blockAt_eq hentry]
  exact unstopped_bind fun _ _ => rfl

/-- A range of lanes is checked if its end is a word. -/
theorem lanes?_eq {v : VarId} {s : SlotId} {start : Nat}
    (h : ∀ lane width, f.varTypes[v]? = some (.vector lane width) → start + width < twoPow 64) :
  lanes? f v s start = unstopped (lanes f v s start)
  := by
  refine unstopped_bind fun array _ => unstopped_bind fun type htype => ?_
  rw [varType_eq_ok] at htype
  cases type with
  | vector lane width =>
    refine unstopped_bind fun _ _ => ?_
    rw [addWords, if_pos (h lane width htype)]
    rfl
  | int | float | bool | str | ptr | none | array | tuple | function => rfl

/-- The lanes of an instruction end at a number of 64 bits. -/
def HasLaneEnd (f : Function) : Instr → Prop
  | .loadLanes v _ start | .storeLanes _ start v =>
    ∀ lane width, f.varTypes[v]? = some (.vector lane width) → start + width < twoPow 64
  | _ => True

theorem instr?_eq {i : Instr} (h : HasLaneEnd f i) :
  instr? f i = unstopped (instr f i)
  := by
  cases i with
  | loadLanes | storeLanes => exact lanes?_eq h
  | set | call | load | store | loadGlobal | loadElement | storeElement | boundsCheck | makeArray | makeTuple
  | extract | alloc | free | release | binaryLanes => rfl

theorem terminator?_eq (t : Terminator) :
  terminator? f t = unstopped (terminator f t)
  := by
  cases t with
  | ret | unreachable => rfl
  | jump target args =>
    refine unstopped_bind fun _ htarget => ?_
    rw [ensure_eq_ok, decide_eq_true_eq] at htarget
    rw [blockAt_eq htarget]
    exact unstopped_bind fun _ _ => rfl
  | branch test thenBlock elseBlock =>
    refine unstopped_bind fun _ _ => unstopped_forM fun target _ => unstopped_bind fun _ htarget => ?_
    rw [ensure_eq_ok, decide_eq_true_eq] at htarget
    rw [blockAt_eq htarget]
    rfl

theorem block?_eq {b : Block} (h : ∀ i ∈ b.instrs, HasLaneEnd f i) :
  block? f b = unstopped (block f b)
  := by
  rw [block?, unstopped_forM fun i hi => instr?_eq (h i hi)]
  exact unstopped_bind fun _ _ => terminator?_eq b.terminator

/-- The targets of a terminator that has been checked are blocks. -/
theorem lt_of_checked_terminator {t : Terminator} (h : terminator f t = .ok ()) {next : BlockId}
    (hnext : next ∈ t.successors) :
  next < f.blocks.length
  := by
  cases t with
  | ret | unreachable => cases hnext
  | jump target args =>
    obtain rfl := List.mem_singleton.mp hnext
    exact (jump_eq_ok.mp h).1
  | branch test thenBlock elseBlock => exact ((branch_eq_ok.mp h).2 next hnext).1

/-- The search for dominators finds all blocks that it looks up once the blocks have been checked. -/
theorem graph?_eq (hshape : shape f = .ok ()) (hblocks : ∀ b ∈ f.blocks, block f b = .ok ()) :
  graph? f = unstopped (.ok ())
  := by
  obtain ⟨b, hb, -⟩ := entry_of_shape hshape
  obtain ⟨hentry, -⟩ := List.getElem?_eq_some_iff.mp hb
  have htargets : ∀ b ∈ f.blocks, (b.terminator.successors.forM fun next => do
      let _ ← (blockAt f next : Stoppable VerifyFault Block)) = unstopped (.ok ()) := by
    intro b hb
    have hterminator := (check_bind_eq_ok.mp (hblocks b hb)).2
    exact forM_eq_unstopped fun next hnext => by rw [blockAt_eq (lt_of_checked_terminator hterminator hnext)]; rfl
  rw [graph?, blockAt_eq hentry]
  exact forM_eq_unstopped htargets

end Verify

/--
The checks of a function are never stopped, whatever blocks, slots, variables and loops it names, if each range of
lanes ends at a number of 64 bits.
-/
theorem Function.verify?_eq_some {f : Function} (h : ∀ b ∈ f.blocks, ∀ i ∈ b.instrs, Verify.HasLaneEnd f i) :
  f.verify? = some f.verify
  := by
  have hblock : ∀ p ∈ f.blocks.zipIdx, (Verify.block? f p.1).adapt (VerifyError.mk (some p.2))
      = Verify.unstopped ((Verify.block f p.1).mapError (VerifyError.mk (some p.2))) := by
    rintro ⟨b, id⟩ hp
    have hb := List.mem_of_getElem? (List.mk_mem_zipIdx_iff_getElem?.mp hp)
    rw [Verify.block?_eq (h b hb), Verify.unstopped_adapt]
  rw [Function.verify?, Verify.shape?_eq, Verify.unstopped_adapt]
  refine congrArg ExceptT.run (?_ : _ = Verify.unstopped f.verify)
  refine Verify.unstopped_bind fun _ hshape => Verify.unstopped_bind fun _ _ => ?_
  rw [Verify.unstopped_forM hblock]
  refine Verify.unstopped_bind fun _ hblocks => ?_
  have hchecked : ∀ b ∈ f.blocks, Verify.block f b = .ok () := by
    intro b hb
    obtain ⟨id, hid⟩ := List.getElem?_of_mem hb
    have heach : Verify.eachBlock f (fun _ b => Verify.block f b) = .ok () := hblocks
    exact Verify.eachBlock_eq_ok.mp heach id b hid
  rw [Verify.graph?_eq (mapError_eq_ok.mp hshape) hchecked, Verify.unstopped_adapt]
  rfl

/-- A function that loads four lanes from a place in an array of eight numbers. -/
def loadsAt (start : Nat) : Function :=
  { name := "f"
    params := []
    result := .none
    blocks := [⟨[], [⟨.loadLanes 0 0 start, none⟩], .ret none⟩]
    entry := 0
    varTypes := [.vector (.int 64) 4]
    slots := [⟨some "a", .array (.int 64) 8⟩]
    loops := []
    flags := .none }

theorem verify?_loadsAt_six :
  (loadsAt 6).verify? = some (.error ⟨some 0, .laneRange 6 10 0 8⟩)
  := by
  refine (Function.verify?_eq_some fun b hb i hi => ?_).trans rfl
  obtain rfl := List.mem_singleton.mp hb
  obtain rfl := List.mem_singleton.mp hi
  rintro lane width ⟨⟩
  decide

/-- The last place has no number of 64 bits four places on, so the checks are stopped. -/
theorem verify?_loadsAt_last :
  (Function.ofText ("func @f -> none \x7b\n  slot $0 a: [i64; 8]\nbb0:\n"
      ++ "  %0: <4 x i64> = vload $0[18446744073709551615]\n  ret\n\x7d\n")).toOption
      = some (loadsAt 18446744073709551615)
    ∧ (loadsAt 18446744073709551615).verify? = none
  := by
  constructor
  · decide +kernel
  · decide +kernel

end FormCompiler.Flow
