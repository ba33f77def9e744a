import FormCompiler.Optimize.Fold
import FormCompiler.Proofs.Flow.Visited
import FormCompiler.Proofs.Optimize.Sound

/-!
# Values in slots

A load may be replaced by a copy of the variable whose value the slot is known to hold, or by the
constant that is all that the slot ever holds. What is known at a position (`KnownAt`) is true of all
states that runs get there with. An instruction keeps it, and so does going on to a block that has no
other predecessor.
-/

namespace FormCompiler.Flow

open Verify (IsSite IsDefinedAt Site)

namespace Fold

variable {i new : Instr} {slot : SlotId} {ids : List BlockId}

/-! ## What is known -/

/-- A variable has the type of a slot. -/
def FitsSlot (f : Function) (slot : SlotId) (v : VarId) : Prop :=
  ∃ s, f.slots[slot]? = some s ∧ f.varTypes[v]? = some s.type

/-- In all runs, slots hold the values of variables that are defined at a position. -/
structure KnownAt (f : Function) (id : BlockId) (j : Nat) (known : Known) : Prop where
  defined : ∀ {slot v}, known.lookup slot = some v → IsDefinedAt f id j v
  fits : ∀ {slot v}, known.lookup slot = some v → FitsSlot f slot v
  holds : ∀ {W s slot v}, Gets W f id j s → known.lookup slot = some v → s.store.slots slot = s.vars v

variable {f : Function} {id : BlockId} {j : Nat} {known : Known}

theorem knownAt_nil (f : Function) (id : BlockId) (j : Nat) :
  KnownAt f id j []
  := ⟨nofun, nofun, nofun⟩

/-- What is known of slots that an instruction does not write. -/
theorem KnownAt.kept (h : KnownAt f id j known) (hf : f.IsSsa) (hid : id ∈ f.reversePostorder)
    (hi : (f.block id).instrs[j]? = some i) {less : Known}
    (hless : ∀ slot v, less.lookup slot = some v → known.lookup slot = some v ∧ i.writtenSlot? ≠ some slot) :
  KnownAt f id (j + 1) less
  where
  defined hlookup := (h.defined (hless _ _ hlookup).1).mono (Nat.le_succ j)
  fits hlookup := h.fits (hless _ _ hlookup).1
  holds {W s slot v} hgets hlookup := by
    obtain ⟨hknown, hwritten⟩ := hless _ _ hlookup
    obtain ⟨s₀, hs₀, hrun⟩ := (Gets.succ_iff hi).mp hgets
    obtain ⟨x, after, hact, rfl⟩ := Instr.run_eq_ok.mp hrun
    have hdef := hf.def?_ne (hf.getElem?_block hid) hi (h.defined hknown)
    simp only [setVar_of_ne hdef, Instr.slots_of_act hact hwritten]
    exact h.holds hs₀ hknown

/-- One more slot is known. -/
theorem KnownAt.cons (h : KnownAt f id j known) {v : VarId} (hv : IsDefinedAt f id j v) (hfits : FitsSlot f slot v)
    (hholds : ∀ {W s}, Gets W f id j s → s.store.slots slot = s.vars v) :
  KnownAt f id j ((slot, v) :: known)
  := by
  have hcases : ∀ {other w}, ((slot, v) :: known).lookup other = some w →
      (other = slot ∧ w = v) ∨ known.lookup other = some w := by
    intro other w hlookup
    rw [List.lookup_cons] at hlookup
    split at hlookup
    · next heq => exact .inl ⟨by simpa using heq, (Option.some.inj hlookup).symm⟩
    · exact .inr hlookup
  refine ⟨fun hlookup => ?_, fun hlookup => ?_, fun hgets hlookup => ?_⟩
  all_goals rcases hcases hlookup with ⟨rfl, rfl⟩ | hlookup
  · exact hv
  · exact h.defined hlookup
  · exact hfits
  · exact h.fits hlookup
  · exact hholds hgets
  · exact h.holds hgets hlookup

theorem lookup_filter_ne (known : Known) (slot other : SlotId) :
  (known.filter (·.1 != slot)).lookup other = if other = slot then none else known.lookup other
  := by
  induction known with
  | nil => simp
  | cons first known ih =>
    by_cases hfirst : first.1 = slot
    · rw [List.filter_cons_of_neg (by simpa using hfirst), ih, List.lookup_cons]
      split
      · rfl
      · next hne => rw [beq_false_of_ne fun heq => hne (heq.trans hfirst)]
    · rw [List.filter_cons_of_pos (by simpa using hfirst), List.lookup_cons, List.lookup_cons, ih]
      cases heq : other == first.1 with
      | true =>
        have hother : other = first.1 := by simpa using heq
        exact (if_neg fun hslot => hfirst (hother.symm.trans hslot)).symm
      | false => rfl

/-- What is known after an instruction. -/
theorem KnownAt.forwardInstr (h : KnownAt f id j known) (hf : f.verify = .ok ()) (hid : id ∈ f.reversePostorder)
    (hi : (f.block id).instrs[j]? = some i) :
  KnownAt f id (j + 1) (forwardInstr known i).2
  := by
  have hssa := Function.isSsa_of_verify hf
  have hblock := hssa.getElem?_block hid
  have hcheck := Verify.instr_of_mem hf (List.mem_of_getElem? hi)
  have hkept : i.writtenSlot? = none → KnownAt f id (j + 1) known := fun hwritten =>
    h.kept hssa hid hi fun slot v hlookup => ⟨hlookup, by rw [hwritten]; nofun⟩
  have hless : ∀ slot, i.writtenSlot? = some slot → KnownAt f id (j + 1) (known.filter (·.1 != slot)) := by
    intro slot hwritten
    refine h.kept hssa hid hi fun other v hlookup => ?_
    rw [lookup_filter_ne] at hlookup
    split at hlookup
    · cases hlookup
    · next hne =>
      refine ⟨hlookup, ?_⟩
      rw [hwritten]
      rintro ⟨⟩
      exact hne rfl
  have hslot : ∀ {slot v}, (Verify.slotType f slot >>= fun t => Verify.expect f v t) = .ok () →
      FitsSlot f slot v := by
    intro slot v hok
    obtain ⟨t, ht, hv⟩ := bind_eq_ok.mp hok
    obtain ⟨s, hs, rfl⟩ := Verify.slotType_eq_ok.mp ht
    exact ⟨s, hs, Verify.expect_eq_ok.mp hv⟩
  cases i with
  | store slot value =>
    -- What was known of the slot before is hidden by what is added.
    have hrest := hless slot rfl
    have hdefined := hssa.isDefinedAt_of_mem_uses hid hblock hi (List.mem_singleton_self value)
    have hcons : KnownAt f id (j + 1) ((slot, value) :: known.filter (·.1 != slot)) := by
      refine hrest.cons (hdefined.mono (Nat.le_succ j)) (hslot hcheck) fun hgets => ?_
      obtain ⟨s₀, -, hrun⟩ := (Gets.succ_iff hi).mp hgets
      obtain ⟨x, after, hact, rfl⟩ := Instr.run_eq_ok.mp hrun
      obtain ⟨rfl, rfl⟩ := Prod.mk.inj (Except.ok.inj hact)
      simp [Store.set, Instr.def?]
    have hsame : ∀ {other v}, ((slot, value) :: known).lookup other = some v →
        ((slot, value) :: known.filter (·.1 != slot)).lookup other = some v := by
      intro other v hlookup
      rw [List.lookup_cons] at hlookup ⊢
      cases heq : other == slot with
      | true => rwa [heq] at hlookup
      | false =>
        rw [heq] at hlookup
        exact (lookup_filter_ne known slot other).trans (by simpa [show other ≠ slot by simpa using heq])
    exact ⟨fun hlookup => hcons.defined (hsame hlookup), fun hlookup => hcons.fits (hsame hlookup),
      fun hgets hlookup => hcons.holds hgets (hsame hlookup)⟩
  | load dst slot =>
    simp only [Fold.forwardInstr]
    split
    · exact hkept rfl
    · refine (hkept rfl).cons ?_ (hslot hcheck) fun hgets => ?_
      · exact ⟨⟨id, some j⟩, ⟨_, hblock, _, hi, rfl⟩, .inl ⟨rfl, by simp⟩⟩
      · obtain ⟨s₀, -, hrun⟩ := (Gets.succ_iff hi).mp hgets
        obtain ⟨x, after, hact, rfl⟩ := Instr.run_eq_ok.mp hrun
        obtain ⟨rfl, rfl⟩ := Prod.mk.inj (Except.ok.inj hact)
        simp [setVar, Instr.def?]
  | storeElement slot index value | storeLanes slot start value => exact hless slot rfl
  | set | call | loadGlobal | loadElement | boundsCheck | makeArray | makeTuple | extract | alloc | free
  | release | loadLanes | binaryLanes => exact hkept rfl

/-- What is known at the end of the only predecessor is known at the start of a block. -/
theorem KnownAt.of_predecessors (hf : f.IsSsa) {p : BlockId}
    (h : KnownAt f p (f.block p).instrs.length known) (hp : f.predecessors id = [p])
    (hid : id ∈ f.reversePostorder) (hentry : id ≠ f.entry) :
  KnownAt f id 0 known
  := by
  have hcarried : ∀ {slot v}, known.lookup slot = some v →
      IsDefinedAt f id 0 v ∧ v ∉ (f.block id).params := fun hlookup =>
    hf.isDefinedAt_of_predecessors hp hid hentry (h.defined hlookup)
  refine ⟨fun hlookup => (hcarried hlookup).1, h.fits, fun hgets hlookup => ?_⟩
  obtain ⟨before, s', hgets', hrun⟩ := hgets.start_or_last.resolve_left fun hstart => hentry hstart.1
  obtain rfl := Function.eq_of_predecessors hp (Terminator.mem_successors_of_run hrun)
  have hholds := h.holds hgets' hlookup
  cases hterminator : (f.block before).terminator with
  | ret | unreachable =>
    rw [hterminator] at hrun
    cases hrun
  | branch test thenBlock elseBlock =>
    rw [hterminator] at hrun
    obtain ⟨-, rfl⟩ := Prod.mk.inj (Except.ok.inj hrun)
    exact hholds
  | jump target args =>
    rw [hterminator] at hrun
    obtain ⟨rfl, rfl⟩ := Prod.mk.inj (Except.ok.inj hrun)
    exact hholds.trans (passArgs_of_not_mem (hcarried hlookup).2).symm

/-! ## Bodies -/

/-- What is known after instructions. -/
def knownAfter (known : Known) (instrs : List Instr) : Known :=
  instrs.foldl (fun known i => (forwardInstr known i).2) known

/-- The instruction that stands at a position in the end. -/
def forwarded (known : Known) (instrs : List Instr) (line : Instr × Nat) : Instr :=
  ((forwardInstr (knownAfter known (instrs.take line.2)) line.1).1).getD line.1

theorem known_forwardBody (known : Known) (lines : List Line) :
  (forwardBody known lines).2.1 = knownAfter known (lines.map (·.instr))
  := by
  induction lines generalizing known with
  | nil => rfl
  | cons line lines ih =>
    rw [forwardBody]
    simp only
    split
    · exact ih _
    · exact ih _

theorem instrs_forwardBody (known : Known) (lines : List Line) :
  (forwardBody known lines).2.2.map (·.instr)
    = (lines.map (·.instr)).zipIdx.map (forwarded known (lines.map (·.instr)))
  := by
  induction lines generalizing known with
  | nil => rfl
  | cons line lines ih =>
    have hrest : ((lines.map (·.instr)).zipIdx 1).map (forwarded known ((line :: lines).map (·.instr)))
        = (forwardBody (forwardInstr known line.instr).2 lines).2.2.map (·.instr) := by
      rw [ih, ← Nat.zero_add 1, List.zipIdx_succ, List.map_map]
      rfl
    rw [List.map_cons, List.zipIdx_cons, List.map_cons, Nat.zero_add]
    rw [List.map_cons] at hrest
    rw [hrest, forwardBody]
    simp only
    cases hnew : (forwardInstr known line.instr).1 with
    | none | some new => simp [forwarded, knownAfter, hnew]

theorem KnownAt.knownAfter (h : KnownAt f id 0 known) (hf : f.verify = .ok ()) (hid : id ∈ f.reversePostorder)
    (hj : j ≤ (f.block id).instrs.length) :
  KnownAt f id j (knownAfter known ((f.block id).instrs.take j))
  := by
  induction j with
  | zero => exact h
  | succ j ih =>
    have hi := List.getElem?_eq_getElem hj
    have hstep := (ih (Nat.le_of_succ_le hj)).forwardInstr hf hid hi
    rw [List.take_add_one, hi, Option.toList_some, Fold.knownAfter, List.foldl_append]
    exact hstep

/-! ## Functions -/

/-- What is known at the start of a block when blocks are taken in order. -/
def startKnown (f : Function) (exits : List (BlockId × Known)) : List BlockId → BlockId → Known
  | [], _ => []
  | id :: rest, d =>
    if d = id then knownAtStart f exits id
    else
      startKnown f ((id, knownAfter (knownAtStart f exits id) (f.block id).instrs) :: exits) rest d

/-- What blocks start with is known there. -/
theorem knownAt_startKnown (hf : f.verify = .ok ()) (exits : List (BlockId × Known))
    (hexits : ∀ {p known}, exits.lookup p = some known → KnownAt f p (f.block p).instrs.length known)
    (hids : ∀ d ∈ ids, d ∈ f.reversePostorder) {d : BlockId} (hd : d ∈ ids) :
  KnownAt f d 0 (startKnown f exits ids d)
  := by
  have hstart : ∀ {exits : List (BlockId × Known)}, (∀ {p known}, exits.lookup p = some known →
      KnownAt f p (f.block p).instrs.length known) → ∀ {id}, id ∈ f.reversePostorder →
      KnownAt f id 0 (knownAtStart f exits id) := by
    intro exits hexits id hid
    unfold knownAtStart
    split
    · next p hp =>
      split
      · exact knownAt_nil f id 0
      · next hentry =>
        cases hlookup : exits.lookup p with
        | none => exact knownAt_nil f id 0
        | some known =>
          exact (hexits hlookup).of_predecessors (Function.isSsa_of_verify hf) hp hid hentry
    · exact knownAt_nil f id 0
  induction ids generalizing exits with
  | nil => cases hd
  | cons id rest ih =>
    have hid := hids id (by simp)
    rw [startKnown]
    split
    · next heq =>
      subst heq
      exact hstart hexits hid
    · next hne =>
      refine ih _ (fun {p _} hlookup => ?_) (fun d hd => hids d (by simp [hd])) ?_
      · rw [List.lookup_cons] at hlookup
        split at hlookup
        · next heq =>
          obtain rfl := Option.some.inj hlookup
          obtain rfl : p = id := by simpa using heq
          have hend := (hstart hexits hid).knownAfter hf hid le_rfl
          rwa [List.take_length] at hend
        · exact hexits hlookup
      · exact (List.mem_cons.mp hd).resolve_left hne

theorem startKnown_congr {g : Function} (hpredecessors : ∀ id, g.predecessors id = f.predecessors id)
    (hentry : g.entry = f.entry) (hblocks : ∀ id ∈ ids, g.block id = f.block id) (exits : List (BlockId × Known))
    (d : BlockId) :
  startKnown g exits ids d = startKnown f exits ids d
  := by
  have hstart : ∀ exits id, knownAtStart g exits id = knownAtStart f exits id := by
    intro exits id
    simp only [knownAtStart, hpredecessors, hentry]
  induction ids generalizing exits with
  | nil => rfl
  | cons id rest ih =>
    rw [startKnown, startKnown, hstart, hblocks id (by simp)]
    rw [ih fun id hid => hblocks id (by simp [hid])]

/-- What becomes of blocks. -/
theorem forwardBlocks_spec (exits : List (BlockId × Known)) (hnodup : ids.Nodup)
    (hids : ∀ d ∈ ids, d < f.blocks.length) :
  SameShape f (forwardBlocks exits ids f).2 ∧ (forwardBlocks exits ids f).2.slots = f.slots
    ∧ (forwardBlocks exits ids f).2.varTypes = f.varTypes
    ∧ ∀ d, ((forwardBlocks exits ids f).2.block d).instrs
      = if d ∈ ids then (f.block d).instrs.zipIdx.map
          (forwarded (startKnown f exits ids d) (f.block d).instrs)
        else (f.block d).instrs
  := by
  induction ids generalizing f exits with
  | nil => exact ⟨.refl f, rfl, rfl, fun d => by simp [forwardBlocks]⟩
  | cons id rest ih =>
    obtain ⟨hnot, hnodup⟩ := List.nodup_cons.mp hnodup
    have hid := hids id (by simp)
    have hshape := SameShape.modifyBody hid
      (forwardBody (knownAtStart f exits id) (f.block id).body).2.2
    have hblock := fun d => Function.block_modifyBlock hid
      (fun b => { b with body := (forwardBody (knownAtStart f exits id) (f.block id).body).2.2 }) d
    rw [forwardBlocks]
    simp only
    generalize hg : (f.modifyBlock id fun b =>
      { b with body := (forwardBody (knownAtStart f exits id) (f.block id).body).2.2 }) = g at hshape hblock
    have hother : ∀ d, d ≠ id → g.block d = f.block d := fun d hne => by rw [hblock, if_neg hne]
    obtain ⟨hrest, hslots, htypes, hinstrs⟩ := ih (f := g)
      ((id, (forwardBody (knownAtStart f exits id) (f.block id).body).2.1) :: exits) hnodup
      fun d hd => hshape.length ▸ hids d (by simp [hd])
    refine ⟨hshape.trans hrest, hslots.trans (by rw [← hg]; rfl), htypes.trans (by rw [← hg]; rfl),
      fun d => ?_⟩
    rw [hinstrs]
    by_cases heq : d = id
    · subst heq
      rw [if_neg hnot, if_pos (by simp), startKnown, if_pos rfl, hblock, if_pos rfl]
      exact instrs_forwardBody _ _
    · rw [hother d heq, startKnown, if_neg heq, known_forwardBody,
        startKnown_congr hshape.predecessors hshape.entry fun x hx =>
          hother x fun hx' => hnot (hx' ▸ hx)]
      simp only [List.mem_cons, heq, false_or]
      rfl

theorem exists_of_forwardInstr (h : (forwardInstr known i).1 = some new) :
  ∃ dst slot v, i = .load dst slot ∧ new = .set dst (.copy v) ∧ known.lookup slot = some v
  := by
  cases i with
  | load dst slot =>
    simp only [forwardInstr] at h
    split at h
    · next v hv =>
      obtain rfl := Option.some.inj h
      exact ⟨dst, slot, v, rfl, rfl, hv⟩
    · cases h
  | set | call | store | loadGlobal | loadElement | storeElement | boundsCheck | makeArray | makeTuple
  | extract | alloc | free | release | loadLanes | storeLanes | binaryLanes => cases h

theorem isSound_storedValues :
  storedValues.IsSound
  := by
  intro f hf
  have hssa := Function.isSsa_of_verify hf
  obtain ⟨hshape, hslots, htypes, hinstrs⟩ := forwardBlocks_spec (f := f) []
    f.nodup_reversePostorder fun d => Verify.lt_of_mem_reversePostorder hf
  have hknown : ∀ {id : BlockId} {j : Nat} {i : Instr}, id ∈ f.reversePostorder →
      (f.block id).instrs[j]? = some i → KnownAt f id j
        (knownAfter (startKnown f [] f.reversePostorder id) ((f.block id).instrs.take j)) := by
    intro id j i hid hi
    have hstart := knownAt_startKnown hf [] nofun (fun _ hd => hd) hid
    exact hstart.knownAfter hf hid (Nat.le_of_lt (List.getElem?_eq_some_iff.mp hi).1)
  refine hshape.sound hf hslots htypes (fun id line =>
    if id ∈ f.reversePostorder then
      forwarded (startKnown f [] f.reversePostorder id) (f.block id).instrs line
    else line.1) (fun id => ?_) (fun id j i hi => ?_) fun W hW =>
      ⟨_, invariant_gets W f, fun {id j i s} hid hi hgets => ?_⟩
  · refine (hinstrs id).trans ?_
    split
    · rfl
    · exact (List.zipIdx_map_fst 0 _).symm
  · split
    · next hid =>
      unfold forwarded
      cases hnew : (forwardInstr (knownAfter (startKnown f [] f.reversePostorder id)
          ((f.block id).instrs.take j)) i).1 with
      | none => exact .refl hf hi
      | some new =>
        obtain ⟨dst, slot, v, rfl, rfl, hv⟩ := exists_of_forwardInstr hnew
        refine ⟨rfl, fun _ w hw => ?_, ?_⟩
        · obtain rfl : w = v := by simpa [Instr.uses, Value.uses] using hw
          exact (hknown hid hi).defined hv
        · obtain ⟨s, hs, htype⟩ := (hknown hid hi).fits hv
          obtain ⟨t, ht, hdst⟩ := bind_eq_ok.mp (Verify.instr_of_mem hf (List.mem_of_getElem? hi))
          obtain ⟨s', hs', rfl⟩ := Verify.slotType_eq_ok.mp ht
          obtain rfl := Option.some.inj (hs.symm.trans hs')
          exact Verify.same_eq_ok.mpr ⟨_, Verify.expect_eq_ok.mp hdst, htype⟩
    · exact .refl hf hi
  · rw [if_pos hid]
    unfold forwarded
    cases hnew : (forwardInstr (knownAfter (startKnown f [] f.reversePostorder id)
        ((f.block id).instrs.take j)) i).1 with
    | none => rfl
    | some new =>
      obtain ⟨dst, slot, v, rfl, rfl, hv⟩ := exists_of_forwardInstr hnew
      simp only [Option.getD_some, Instr.run, Instr.act, Value.eval, (hknown hid hi).holds hgets hv]
      rfl

/-! ## Slots with one store -/

theorem eq_of_countP_eq_one {α : Type} {items : List α} {p : α → Bool} (h : items.countP p = 1) {i : Nat} {a b : α}
    (hi : items[i]? = some a) (hj : items[j]? = some b) (ha : p a = true) (hb : p b = true) :
  i = j
  := by
  have htotal : ∀ items : List α, total (items.map fun x => if p x then 1 else 0) = items.countP p := by
    intro items
    induction items with
    | nil => rfl
    | cons x items ih =>
      rw [List.map_cons, total, ih, List.countP_cons, Nat.add_comm]
  exact (eq_of_total_eq_one ((htotal items).trans h) (i := i) (j := j) (m := 1) (n := 1) (by simp [hi, ha]) (by simp [hj, hb])
    Nat.one_pos Nat.one_pos).1

/-- A slot that is written once is written at one place. -/
theorem eq_of_writeCount_eq_one (h : writeCount f slot = 1) {id' : BlockId} {j' : Nat} {i' : Instr}
    (hi : (f.block id).instrs[j]? = some i) (hi' : (f.block id').instrs[j']? = some i')
    (hslot : i.writtenSlot? = some slot) (hslot' : i'.writtenSlot? = some slot) :
  id = id' ∧ j = j'
  := by
  have hcount : ∀ {d : BlockId} {k : Nat} {x : Instr}, (f.block d).instrs[k]? = some x →
      x.writtenSlot? = some slot →
      (f.blocks.map fun b => b.instrs.countP (·.writtenSlot? == some slot))[d]?
          = some ((f.block d).instrs.countP (·.writtenSlot? == some slot))
        ∧ 0 < (f.block d).instrs.countP (·.writtenSlot? == some slot) := by
    intro d k x hx hwritten
    constructor
    · simp [Function.getElem?_of_mem_instrs (List.mem_of_getElem? hx)]
    · exact List.countP_pos_iff.mpr ⟨x, List.mem_of_getElem? hx, by simp [hwritten]⟩
  obtain ⟨hget, hpos⟩ := hcount hi hslot
  obtain ⟨hget', hpos'⟩ := hcount hi' hslot'
  obtain ⟨rfl, hone⟩ := eq_of_total_eq_one h hget hget' hpos hpos'
  exact ⟨rfl, eq_of_countP_eq_one hone hi hi' (by simp [hslot]) (by simp [hslot'])⟩

/-- A slot is only ever written at a position of the entry block, with a constant. -/
structure IsSingleStore (f : Function) (slot : SlotId) (position : Nat) (value : VarId) (c : Const) :
    Prop where
  store : (f.block f.entry).instrs[position]? = some (.store slot value)
  count : writeCount f slot = 1
  constant : f.constants.lookup value = some c

theorem exists_of_singleStores {position : Nat} {c : Const} (h : (singleStores f).lookup slot = some (position, c)) :
  ∃ value, IsSingleStore f slot position value c
  := by
  obtain ⟨⟨i, k⟩, hline, hsome⟩ := List.mem_filterMap.mp (mem_of_lookup_eq_some h)
  split at hsome
  · next other value _ heq =>
    obtain ⟨rfl, rfl⟩ := Prod.mk.inj heq
    split at hsome
    · next hcount =>
      obtain ⟨d, hd, hpair⟩ := Option.map_eq_some_iff.mp hsome
      simp only [Prod.mk.injEq] at hpair
      obtain ⟨rfl, rfl, rfl⟩ := hpair
      exact ⟨value, List.mk_mem_zipIdx_iff_getElem?.mp hline, hcount, hd⟩
    · cases hsome
  · cases hsome

/-- From the store on, a slot with a single store holds the constant. -/
def SingleHolds (f : Function) (id : BlockId) (j : Nat) (s : State) : Prop :=
  ∀ slot position value c, IsSingleStore f slot position value c → id ≠ f.entry ∨ position < j →
    s.store.slots slot = c.val

theorem invariant_singleHolds (hf : f.IsSsa) (W : World) :
  Invariant W f fun id j s => HoldAt f (SetHolds f W) id j s.vars ∧ SingleHolds f id j s
  where
  start args vars store := by
    refine ⟨((equations_set hf W W.caller).invariant hf).start args vars store, ?_⟩
    rintro slot position value c - (hentry | hlt)
    · exact absurd rfl hentry
    · exact absurd hlt (Nat.not_lt_zero _)
  instr {id j i s s'} hid hi hs hrun := by
    refine ⟨((equations_set hf W W.caller).invariant hf).instr hid hi hs.1 hrun, ?_⟩
    intro slot position value c hsingle hwhere
    obtain ⟨x, after, hact, rfl⟩ := Instr.run_eq_ok.mp hrun
    by_cases hwritten : i.writtenSlot? = some slot
    · obtain ⟨rfl, rfl⟩ := eq_of_writeCount_eq_one hsingle.count hi hsingle.store hwritten rfl
      obtain rfl := Option.some.inj (hi.symm.trans hsingle.store)
      obtain ⟨rfl, rfl⟩ := Prod.mk.inj (Except.ok.inj hact)
      have hdefined := hf.isDefinedAt_of_mem_uses hid (hf.getElem?_block hid) hi
        (List.mem_singleton_self value)
      simp only [Store.set, Function.update_self]
      exact (areConstants_constants f).vars hsingle.constant hs.1 hdefined
    · refine (Instr.slots_of_act hact hwritten).trans (hs.2 slot position value c hsingle ?_)
      by_cases hentry : id = f.entry
      · subst hentry
        have hlt := hwhere.resolve_left fun hne => hne rfl
        refine .inr (Nat.lt_of_le_of_ne (Nat.le_of_lt_succ hlt) ?_)
        rintro rfl
        obtain rfl := Option.some.inj (hi.symm.trans hsingle.store)
        exact hwritten rfl
      · exact .inl hentry
  last {id s p} hid hs hrun := by
    refine ⟨((equations_set hf W W.caller).invariant hf).last hid hs.1 hrun, ?_⟩
    rintro slot position value c hsingle (hentry | hlt)
    · rw [Terminator.store_of_run hrun]
      refine hs.2 slot position value c hsingle ?_
      by_cases hid : id = f.entry
      · subst hid
        exact .inr (List.getElem?_eq_some_iff.mp hsingle.store).1
      · exact .inl hid
    · exact absurd hlt (Nat.not_lt_zero _)

/-- What becomes of an instruction when loads from slots with single stores are replaced. -/
def singleStored (f : Function) (id : BlockId) (line : Instr × Nat) : Instr :=
  (singleStore? (singleStores f) (id == f.entry) line.2 line.1).getD line.1

theorem exists_of_singleStore? (h : singleStore? (singleStores f) (id == f.entry) j i = some new) :
  ∃ dst slot position value c, i = .load dst slot ∧ new = .set dst (.const c)
    ∧ IsSingleStore f slot position value c ∧ (id ≠ f.entry ∨ position ≤ j)
  := by
  cases i with
  | load dst slot =>
    simp only [singleStore?] at h
    split at h
    · next position c hlookup =>
      split at h
      · cases h
      · next hafter =>
        obtain rfl := Option.some.inj h
        obtain ⟨value, hsingle⟩ := exists_of_singleStores hlookup
        refine ⟨dst, slot, position, value, c, rfl, rfl, hsingle, ?_⟩
        simp only [Bool.and_eq_true, beq_iff_eq, decide_eq_true_eq, not_and, Nat.not_lt] at hafter
        exact or_iff_not_imp_left.mpr fun hentry => hafter (not_not.mp hentry)
    · cases h
  | set | call | store | loadGlobal | loadElement | storeElement | boundsCheck | makeArray | makeTuple
  | extract | alloc | free | release | loadLanes | storeLanes | binaryLanes => cases h

theorem block_singleStoredValues (f : Function) (id : BlockId) :
  (singleStoredValues f).2.block id = (singleStoredBlock (singleStores f) (id == f.entry) (f.block id)).2
  := by
  simp only [singleStoredValues, Function.block, List.getD_eq_getElem?_getD, List.map_map,
    List.getElem?_map, List.getElem?_zipIdx, Option.map_map]
  cases f.blocks[id]? with
  | none => rfl
  | some b => simp

theorem instrs_singleStoredValues (f : Function) (id : BlockId) :
  ((singleStoredValues f).2.block id).instrs = (f.block id).instrs.zipIdx.map (singleStored f id)
  := by
  rw [block_singleStoredValues]
  simp only [Block.instrs, singleStoredBlock, List.map_map, List.zipIdx_map]
  rfl

theorem isSound_singleStoredValues :
  singleStoredValues.IsSound
  := by
  intro f hf
  have hssa := Function.isSsa_of_verify hf
  have hshape : SameShape f (singleStoredValues f).2 :=
    ⟨rfl, rfl, rfl, rfl, by simp [singleStoredValues], fun id => by rw [block_singleStoredValues]; rfl,
      fun id => by rw [block_singleStoredValues]; rfl⟩
  refine hshape.sound hf rfl rfl _ (instrs_singleStoredValues f) (fun id j i hi => ?_) fun W hW =>
    ⟨_, invariant_singleHolds hssa W, fun {id j i s} hid hi hholds => ?_⟩
  · unfold singleStored
    cases hnew : singleStore? (singleStores f) (id == f.entry) j i with
    | none => exact .refl hf hi
    | some new =>
      obtain ⟨dst, slot, position, value, c, rfl, rfl, hsingle, -⟩ := exists_of_singleStore? hnew
      refine ⟨rfl, nofun, ?_⟩
      -- The constant has the type of the variable that is stored, and so of the slot.
      obtain ⟨b, hb, hset⟩ := areConstants_constants f value c hsingle.constant
      obtain ⟨d, hd⟩ := List.getElem?_of_mem hb
      obtain ⟨t, hvalue, htype⟩ := Verify.expectThat_eq_ok.mp (Verify.instr_eq_ok hf hd hset)
      obtain ⟨u, hslot, hstored⟩ := bind_eq_ok.mp
        (Verify.instr_of_mem hf (List.mem_of_getElem? hsingle.store))
      obtain ⟨u', hslot', hdst⟩ := bind_eq_ok.mp (Verify.instr_of_mem hf (List.mem_of_getElem? hi))
      obtain rfl := Except.ok.inj (hslot.symm.trans hslot')
      obtain rfl := Option.some.inj (hvalue.symm.trans (Verify.expect_eq_ok.mp hstored))
      exact Verify.expectThat_eq_ok.mpr ⟨t, Verify.expect_eq_ok.mp hdst, htype⟩
  · unfold singleStored
    cases hnew : singleStore? (singleStores f) (id == f.entry) j i with
    | none => rfl
    | some new =>
      obtain ⟨dst, slot, position, value, c, rfl, rfl, hsingle, hwhere⟩ := exists_of_singleStore? hnew
      have hslot : s.store.slots slot = c.val := by
        refine hholds.2 slot position value c hsingle (or_iff_not_imp_left.mpr fun hentry => ?_)
        obtain rfl := not_not.mp hentry
        refine Nat.lt_of_le_of_ne (hwhere.resolve_left hentry) ?_
        rintro rfl
        cases hi.symm.trans hsingle.store
      simp only [Option.getD_some, Instr.run, Instr.act, Value.eval, hslot]
      rfl

end Fold

end FormCompiler.Flow
