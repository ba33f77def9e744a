import FormCompiler.Proofs.Optimize.Constants
import FormCompiler.Proofs.Optimize.LaneRewrite

/-!
# Runs with vector instructions

The vector instructions of a group do at once what its chains did one after the other. While the
original function is inside of the group, the other one has not changed the destination yet: the
original has stored the first few lanes (`Between`). After the last store, slots are the same again.
-/

namespace FormCompiler.Flow

open Verify (IsSite IsDefinedAt Site)

variable {slots : SlotId → Prop} {s t : Store}

/-! ## Arrays -/

theorem Val.element_setElement_of_ne {array x : Val} {m n : Nat} (hne : m ≠ n) :
  (array.setElement (.int m) x).element (.int n) = array.element (.int n)
  := by
  cases array with
  | array elements =>
    simp only [Val.setElement, Int.natCast_nonneg, if_true, Val.element, Int.toNat_natCast]
    rw [List.getD_eq_getElem?_getD, List.getD_eq_getElem?_getD, List.getElem?_set_ne hne]
  | int | float | bool | str | ptr | tuple | vector | nothing => rfl

theorem setFrom_append_singleton (array : Val) (start : Nat) (xs : List Val) (x : Val) :
  setFrom array start (xs ++ [x]) = (setFrom array start xs).setElement (.int (start + xs.length : Nat)) x
  := by
  induction xs generalizing array start with
  | nil => rfl
  | cons y xs ih =>
    rw [List.cons_append, setFrom, setFrom, ih, List.length_cons, Nat.add_assoc, Nat.add_comm 1]

/-- The elements after those that are set stay as they are. -/
theorem element_setFrom_of_le {array : Val} {start n : Nat} {xs : List Val}
    (h : start + xs.length ≤ n) :
  (setFrom array start xs).element (.int n) = array.element (.int n)
  := by
  induction xs generalizing array start with
  | nil => rfl
  | cons x xs ih =>
    rw [List.length_cons] at h
    rw [setFrom, ih (by omega), Val.element_setElement_of_ne (by omega)]

/-! ## Slots that differ -/

/-- Two stores have the same events and the same contents of some slots. -/
def SameOn (slots : SlotId → Prop) (s t : Store) : Prop :=
  s.trace = t.trace ∧ ∀ slot, slots slot → s.slots slot = t.slots slot

theorem SameOn.set (h : SameOn slots s t) (slot : SlotId) {x y : Val} (hxy : x = y) :
  SameOn slots (s.set slot x) (t.set slot y)
  := by
  refine ⟨h.1, fun other hother => ?_⟩
  subst hxy
  simp only [Store.set, Function.update_apply, h.2 other hother]

theorem SameOn.log (h : SameOn slots s t) (e : Event) :
  SameOn slots (s.log e) (t.log e)
  := ⟨by simp only [Store.log, h.1], h.2⟩

/-- An instruction that only reads slots that are the same. -/
theorem Instr.act_sameOn {W : World} {calls : Caller} {type : VarId → ValueType} {vars : VarId → Val}
    (h : SameOn slots s t) {i : Instr} (hread : ∀ slot, i.readSlot? = some slot → slots slot) :
  Agree (fun x y => x.1 = y.1 ∧ SameOn slots x.2 y.2) (i.act W calls type vars s)
    (i.act W calls type vars t)
  := by
  have hslot : ∀ {slot}, i.readSlot? = some slot → s.slots slot = t.slots slot :=
    fun hslot => h.2 _ (hread _ hslot)
  cases i with
  | set dst value =>
    simp only [Instr.act, h.1]
    cases value.eval W (type dst) vars with
    | none => rfl
    | some x => exact ⟨_, rfl, rfl, h⟩
  | call dst callee args convention isTail =>
    simp only [Instr.act, h.1]
    cases calls t.trace callee convention (args.map vars) with
    | error stop => rfl
    | ok result => exact ⟨_, rfl, rfl, rfl, h.2⟩
  | load dst slot => exact ⟨_, rfl, hslot rfl, h⟩
  | loadElement dst slot index | loadLanes dst slot start =>
    refine ⟨_, rfl, ?_, h⟩
    simp only [hslot rfl]
  | store slot value => exact ⟨_, rfl, rfl, h.set slot rfl⟩
  | storeElement slot index value | storeLanes slot start value =>
    exact ⟨_, rfl, rfl, h.set slot (by rw [hslot rfl])⟩
  | boundsCheck index length =>
    simp only [Instr.act, h.1]
    split
    · exact ⟨_, rfl, rfl, h⟩
    · rfl
  | alloc dst size =>
    refine ⟨_, rfl, ?_, h.log _⟩
    simp only [Store.log, h.1]
  | free pointer | release pointer => exact ⟨_, rfl, rfl, h.log _⟩
  | loadGlobal | makeArray | makeTuple | extract => exact ⟨_, rfl, rfl, h⟩
  | binaryLanes dst op lhs rhs =>
    simp only [Instr.act, h.1]
    split
    · rfl
    · exact ⟨_, rfl, rfl, h⟩

namespace Lanes

/-! ## Groups -/

/-- What the lanes of a group store, as computed from the contents of slots. -/
def laneValue (W : World) (g : Group) (slots : SlotId → Val) (k : Nat) : Val :=
  W.apply g.op g.element ((slots g.lhs).element (.int (g.start + k : Nat)))
    ((slots g.rhs).element (.int (g.start + k : Nat)))

/-- The destination of a group after so many lanes have been stored. -/
def partly (W : World) (g : Group) (slots : SlotId → Val) (m : Nat) : Val :=
  setFrom (slots g.dest) g.start ((List.range m).map (laneValue W g slots))

theorem partly_succ (W : World) (g : Group) (slots : SlotId → Val) (m : Nat) :
  partly W g slots (m + 1)
    = (partly W g slots m).setElement (.int (g.start + m : Nat)) (laneValue W g slots m)
  := by
  unfold partly
  rw [List.range_succ, List.map_append, List.map_singleton, setFrom_append_singleton, List.length_map,
    List.length_range]

theorem element_partly {W : World} {g : Group} {slots : SlotId → Val} {m k : Nat} (hle : m ≤ k) :
  (partly W g slots m).element (.int (g.start + k : Nat))
    = (slots g.dest).element (.int (g.start + k : Nat))
  := element_setFrom_of_le (by simpa using hle)

section

variable {f : Function} {id : BlockId} {b : Block} {g : Group} {width : Nat} {chain : Nat → Chain}
  {constants : List (VarId × Const)} {W : World} {calls : Caller}

theorem mayTrap_of_isLaneWise {op : BinaryOp} {lane : ValueType} (h : Verify.isLaneWise op lane = true) :
  op.mayTrap = false
  := by
  cases op with
  | div | mod => simp [Verify.isLaneWise, BinaryOp.isBitwise] at h
  | _ => rfl

theorem zipWith_lanesFrom (W : World) (g : Group) (slots : SlotId → Val) (width : Nat) :
  (lanesFrom (slots g.lhs) g.start width).zipWith (W.apply g.op g.element)
      (lanesFrom (slots g.rhs) g.start width)
    = (List.range width).map (laneValue W g slots)
  := by
  rw [lanesFrom, lanesFrom, List.zipWith_map, List.zipWith_self]
  rfl

/-- The vector instructions store all lanes, and set new variables only. -/
theorem runAll_laneInstrs (W : World) (calls : Caller) {type : VarId → ValueType} {n : VarId}
    (hop : g.op.mayTrap = false) (htype : ∀ k : Nat, k < 3 → type (n + k) = laneVector g width)
    (t : State) :
  ∃ vars, runAll W calls type (laneInstrs g n) t
      = .ok ⟨vars, t.store.set g.dest (partly W g t.store.slots width)⟩
    ∧ ∀ v < n, vars v = t.vars v
  := by
  let left := Val.vector (lanesFrom (t.store.slots g.lhs) g.start width)
  let right := Val.vector (lanesFrom (t.store.slots g.rhs) g.start width)
  let result := Val.vector ((List.range width).map (laneValue W g t.store.slots))
  let vars₁ := setVar t.vars (some n) left
  let vars₂ := setVar vars₁ (some (n + 1)) right
  let vars₃ := setVar vars₂ (some (n + 2)) result
  have hfirst : (Instr.loadLanes n g.lhs g.start).run W calls type t = .ok ⟨vars₁, t.store⟩ := by
    refine Instr.run_eq_ok.mpr ⟨left, t.store, ?_, rfl⟩
    simp only [Instr.act, show type n = _ from htype 0 (by decide), laneVector, laneCount, left]
  have hsecond : (Instr.loadLanes (n + 1) g.rhs g.start).run W calls type ⟨vars₁, t.store⟩
      = .ok ⟨vars₂, t.store⟩ := by
    refine Instr.run_eq_ok.mpr ⟨right, t.store, ?_, rfl⟩
    simp only [Instr.act, htype 1 (by decide), laneVector, laneCount, right]
  have hthird : (Instr.binaryLanes (n + 2) g.op n (n + 1)).run W calls type ⟨vars₂, t.store⟩
      = .ok ⟨vars₃, t.store⟩ := by
    refine Instr.run_eq_ok.mpr ⟨result, t.store, ?_, rfl⟩
    simp [Instr.act, htype 2 (by decide), laneVector, laneType, hop, setVar, vars₁, vars₂, left, right,
      result, Val.lanes, zipWith_lanesFrom]
  have hfourth : (Instr.storeLanes g.dest g.start (n + 2)).run W calls type ⟨vars₃, t.store⟩
      = .ok ⟨vars₃, t.store.set g.dest (partly W g t.store.slots width)⟩ := by
    refine Instr.run_eq_ok.mpr ⟨.nothing, _, ?_, by rw [Instr.def?, setVar_none]⟩
    simp [Instr.act, setVar, vars₃, result, Val.lanes, partly]
  refine ⟨vars₃, ?_, fun v hv => ?_⟩
  · rw [laneInstrs, runAll_cons, hfirst]
    change runAll _ _ _ _ _ = _
    rw [runAll_cons, hsecond]
    change runAll _ _ _ _ _ = _
    rw [runAll_cons, hthird]
    change runAll _ _ _ _ _ = _
    rw [runAll_cons, hfourth]
    rfl
  · have hne : ∀ k : Nat, n + k ≠ v := fun k => Nat.ne_of_gt (Nat.lt_add_right k hv)
    simp only [vars₁, vars₂, vars₃]
    rw [setVar_of_ne (by simpa using hne 2), setVar_of_ne (by simpa using hne 1),
      setVar_of_ne (by simpa using hne 0)]

/-! ## Inside of a group -/

/-- What the instructions of a chain have computed before a position, from the contents of slots. -/
structure Computed (W : World) (g : Group) (k : Nat) (c : Chain) (j : Nat) (vars : VarId → Val)
    (slots : SlotId → Val) : Prop where
  left : c.left < j → vars c.lhs = (slots g.lhs).element (.int (g.start + k : Nat))
  right : c.right < j → vars c.rhs = (slots g.rhs).element (.int (g.start + k : Nat))
  value : c.operation < j → vars c.value = laneValue W g slots k

/--
The original function and the one with vector instructions, before a position of the block. The
original has stored the first `m` lanes; once it has stored all, so has the other.
-/
structure Between (f : Function) (W : World) (id : BlockId) (g : Group) (width : Nat)
    (chain : Nat → Chain) (j : Nat) (s t : State) : Prop where
  trace : s.store.trace = t.store.trace
  slots : ∀ slot, slot ≠ g.dest → s.store.slots slot = t.store.slots slot
  vars : ∀ v, ¬IsHidden f width chain v → s.vars v = t.vars v
  holds : HoldAt f (SetHolds f W) id j s.vars
  stored : ∃ m ≤ width, (∀ k < width, (chain k).store < j ↔ k < m)
    ∧ s.store.slots g.dest
      = if m = width then t.store.slots g.dest else partly W g t.store.slots m
  computed : ∀ k < width, j ≤ (chain k).store →
    Computed W g k (chain k) j s.vars t.store.slots

section

variable (hf : f.IsSsa) (hid : id ∈ f.reversePostorder) (hb : f.blocks[id]? = some b)
  (hconstants : AreConstants f constants) {j : Nat} {i : Instr} (hi : b.instrs[j]? = some i)
  {s s' : State} (hrun : i.run W calls f.varType s = .ok s')
  (hholds : HoldAt f (SetHolds f W) id j s.vars)

include hf hb hi hrun in
/-- What has been computed in a block is kept. -/
theorem vars_of_def?_lt {p : Nat} {i' : Instr} {v : VarId} (hi' : b.instrs[p]? = some i')
    (hdef : i'.def? = some v) (hlt : p < j) :
  s'.vars v = s.vars v
  := by
  obtain ⟨x, after, -, rfl⟩ := Instr.run_eq_ok.mp hrun
  refine setVar_of_ne fun hdef' => ?_
  exact Nat.ne_of_lt hlt (hf.eq_of_def? hb hi' hdef hi hdef')

include hf hid hb hconstants hi hrun hholds in
/-- A load that has run has loaded an element. -/
theorem IsLoad.vars {p : Nat} {v : VarId} {slot : SlotId} {n : Nat}
    (hload : IsLoad f b constants p v slot n) (hlt : p < j + 1) {y : Val}
    (hbefore : p < j → s.vars v = y) (hnow : (s.store.slots slot).element (.int n) = y) :
  s'.vars v = y
  := by
  obtain ⟨-, index, hi', hindex⟩ := hload
  rcases Nat.lt_or_eq_of_le (Nat.le_of_lt_succ hlt) with hlt | rfl
  · rw [vars_of_def?_lt hf hb hi hrun hi' rfl hlt, hbefore hlt]
  · obtain rfl := Option.some.inj (hi.symm.trans hi')
    have hdefined := hf.isDefinedAt_of_mem_uses hid hb hi (v := index) (by simp [Instr.uses])
    obtain ⟨x, after, hact, rfl⟩ := Instr.run_eq_ok.mp hrun
    simp only [Instr.act, Except.ok.injEq, Prod.mk.injEq] at hact
    rw [← hnow, ← show s.vars index = .int n from hconstants.vars hindex hholds hdefined, hact.1]
    simp [Instr.def?, setVar]

include hf hid hb hconstants hi hrun hholds in
/-- What a chain has computed after one more instruction. -/
theorem IsGroup.computed_succ (hg : IsGroup f b constants width g chain) {k : Nat} (hk : k < width)
    {slots : SlotId → Val}
    (hleft : (s.store.slots g.lhs).element (.int (g.start + k : Nat))
      = (slots g.lhs).element (.int (g.start + k : Nat)))
    (hright : (s.store.slots g.rhs).element (.int (g.start + k : Nat))
      = (slots g.rhs).element (.int (g.start + k : Nat)))
    (h : Computed W g k (chain k) j s.vars slots) :
  Computed W g k (chain k) (j + 1) s'.vars slots
  := by
  obtain ⟨-, -, hoperation, hloadLeft, hloadRight⟩ := hg.chains k hk
  refine ⟨fun hlt => ?_, fun hlt => ?_, fun hlt => ?_⟩
  · exact hloadLeft.vars hf hid hb hconstants hi hrun hholds hlt h.left hleft
  · exact hloadRight.vars hf hid hb hconstants hi hrun hholds hlt h.right hright
  rcases Nat.lt_or_eq_of_le (Nat.le_of_lt_succ hlt) with hlt | rfl
  · rw [vars_of_def?_lt hf hb hi hrun hoperation rfl hlt, h.value hlt]
  · obtain rfl := Option.some.inj (hi.symm.trans hoperation)
    -- The loads come before the operation.
    obtain ⟨-, _, hleftInstr, -⟩ := hloadLeft
    obtain ⟨-, _, hrightInstr, -⟩ := hloadRight
    have hlhs := h.left (hf.lt_of_mem_uses hid hb hi (by simp [Instr.uses, Value.uses]) hleftInstr rfl)
    have hrhs := h.right
      (hf.lt_of_mem_uses hid hb hi (by simp [Instr.uses, Value.uses]) hrightInstr rfl)
    obtain ⟨x, after, hact, rfl⟩ := Instr.run_eq_ok.mp hrun
    simp only [Instr.act, Value.eval, mayTrap_of_isLaneWise hg.laneWise, Bool.false_and,
      Bool.false_eq_true, if_false, hlhs, hrhs, hg.types k hk, Except.ok.injEq, Prod.mk.injEq] at hact
    simp [Instr.def?, setVar, ← hact.1, laneValue]

end

/-! ## One instruction -/

section

variable (hg : IsGroup f b constants width g chain) (hf : f.IsSsa) (hid : id ∈ f.reversePostorder)
  (hb : f.blocks[id]? = some b)

include hg hf hid hb in
/-- The instructions of a chain come one after the other. -/
theorem IsGroup.lt_store {k : Nat} (hk : k < width) :
  (chain k).left < (chain k).operation ∧ (chain k).right < (chain k).operation
    ∧ (chain k).operation < (chain k).store
  := by
  obtain ⟨⟨_, hstore, -⟩, -, hoperation, ⟨-, _, hleft, -⟩, ⟨-, _, hright, -⟩⟩ := hg.chains k hk
  refine ⟨hf.lt_of_mem_uses hid hb hoperation ?_ hleft rfl, hf.lt_of_mem_uses hid hb hoperation ?_ hright rfl,
    hf.lt_of_mem_uses hid hb hstore ?_ hoperation rfl⟩
  · simp [Instr.uses, Value.uses]
  · simp [Instr.uses, Value.uses]
  · simp [Instr.uses]

include hg in
theorem IsGroup.store_lt_iff {k k' : Nat} (hk : k < width) (hk' : k' < width) :
  (chain k).store < (chain k').store ↔ k < k'
  := by
  constructor
  · intro hlt
    by_contra hge
    rcases Nat.lt_or_eq_of_le (Nat.le_of_not_lt hge) with hlt' | rfl
    · exact Nat.lt_asymm hlt (hg.increasing _ _ hlt' hk)
    · exact Nat.lt_irrefl _ hlt
  · exact fun hlt => hg.increasing k k' hlt hk'

include hg hf hid hb in
theorem IsGroup.member_le {p : Nat} (hp : p ∈ g.members) :
  p ≤ (chain (width - 1)).store
  := by
  obtain ⟨k, hk, hpositions⟩ := (hg.members p).mp hp
  obtain ⟨hleft, hright, hoperation⟩ := hg.lt_store hf hid hb hk
  have hlast : (chain k).store ≤ (chain (width - 1)).store := by
    by_contra hlt
    have hlt := (hg.store_lt_iff (by omega) hk).mp (Nat.lt_of_not_le hlt)
    omega
  simp only [Chain.positions, List.mem_cons, List.not_mem_nil, or_false] at hpositions
  omega

theorem foldl_max_eq {l : List Nat} {a : Nat} (h : ∀ x ∈ l, x ≤ a) :
  l.foldl max a = a
  := by
  induction l with
  | nil => rfl
  | cons x l ih =>
    rw [List.foldl_cons, Nat.max_eq_left (h x (by simp))]
    exact ih fun y hy => h y (by simp [hy])

include hg hf hid hb in
theorem IsGroup.last_eq :
  g.last = (chain (width - 1)).store
  := by
  rw [hg.last, foldl_max_eq fun p hp => hg.member_le hf hid hb hp]

theorem IsGroup.store_mem (hg : IsGroup f b constants width g chain) {k : Nat} (hk : k < width) :
  (chain k).store ∈ g.members
  := (hg.members _).mpr ⟨k, hk, by simp [Chain.positions]⟩

/-- A lane that has not been stored is the same in all slots. -/
theorem Between.element {j : Nat} {s t : State} (h : Between f W id g width chain j s t)
    {k : Nat} (hk : k < width) (hstore : j ≤ (chain k).store) (slot : SlotId) :
  (s.store.slots slot).element (.int (g.start + k : Nat))
    = (t.store.slots slot).element (.int (g.start + k : Nat))
  := by
  by_cases hslot : slot = g.dest
  · subst hslot
    obtain ⟨m, hm, hstored, hdest⟩ := h.stored
    have hmk : m ≤ k := by
      by_contra hlt
      have := (hstored k hk).mpr (Nat.lt_of_not_le hlt)
      omega
    rw [hdest, if_neg (by omega), element_partly hmk]
  · rw [h.slots slot hslot]

/-- Before and after a group nothing differs but hidden variables. -/
theorem Between.of_similar {j : Nat} {s t : State} (hst : Similar (IsHidden f width chain) s t)
    (hholds : HoldAt f (SetHolds f W) id j s.vars)
    (hwhere : (∀ k < width, ∀ p ∈ (chain k).positions, j ≤ p) ∨ ∀ k < width, (chain k).store < j) :
  Between f W id g width chain j s t
  := by
  refine ⟨congrArg Store.trace hst.1, fun _ _ => by rw [hst.1], hst.2, hholds, ?_, fun k hk hstore => ?_⟩
  · rcases hwhere with hbefore | hafter
    · refine ⟨0, Nat.zero_le _, fun k hk => ?_, by rw [hst.1]; split <;> rfl⟩
      have := hbefore k hk (chain k).store (by simp [Chain.positions])
      omega
    · exact ⟨width, le_rfl, fun k hk => by simp [hafter k hk, hk], by rw [if_pos rfl, hst.1]⟩
  · rcases hwhere with hbefore | hafter
    · have hpositions : ∀ p ∈ (chain k).positions, ¬p < j :=
        fun p hp => Nat.not_lt_of_le (hbefore k hk p hp)
      exact ⟨fun hlt => absurd hlt (hpositions _ (by simp [Chain.positions])),
        fun hlt => absurd hlt (hpositions _ (by simp [Chain.positions])),
        fun hlt => absurd hlt (hpositions _ (by simp [Chain.positions]))⟩
    · exact absurd (hafter k hk) (Nat.not_lt_of_le hstore)

theorem Between.similar {j : Nat} {s t : State} (h : Between f W id g width chain j s t)
    (hwhere : (∀ k < width, ∀ p ∈ (chain k).positions, j ≤ p) ∨ ∀ k < width, (chain k).store < j) :
  Similar (IsHidden f width chain) s t
  := by
  refine ⟨?_, h.vars⟩
  obtain ⟨m, hm, hstored, hdest⟩ := h.stored
  have hsame : s.store.slots g.dest = t.store.slots g.dest := by
    rw [hdest]
    split
    · rfl
    · next hne =>
      have hlt : m < width := Nat.lt_of_le_of_ne hm hne
      rcases hwhere with hbefore | hafter
      · cases m with
        | zero => rfl
        | succ m =>
          have hle := hbefore 0 (by omega) (chain 0).store (by simp [Chain.positions])
          exact absurd ((hstored 0 (by omega)).mpr (Nat.succ_pos m)) (Nat.not_lt_of_le hle)
      · exact absurd ((hstored m hlt).mp (hafter m hlt)) (Nat.lt_irrefl m)
  have hslots : s.store.slots = t.store.slots := by
    funext slot
    by_cases hslot : slot = g.dest
    · rw [hslot, hsame]
    · exact h.slots slot hslot
  rw [show s.store = ⟨s.store.slots, s.store.trace⟩ from rfl, hslots, h.trace]

variable (hconstants : AreConstants f constants) {j : Nat} {i : Instr} (hi : b.instrs[j]? = some i)
  {s t : State} (h : Between f W id g width chain j s t)

include hg hf hid hb hconstants hi h in
/-- What the chains that are not stored yet have computed after one more instruction. -/
theorem Between.computed_succ {s' : State} (hrun : i.run W calls f.varType s = .ok s') {k : Nat}
    (hk : k < width) (hstore : j ≤ (chain k).store) :
  Computed W g k (chain k) (j + 1) s'.vars t.store.slots
  := hg.computed_succ hf hid hb hconstants hi hrun h.holds hk (h.element hk hstore _)
    (h.element hk hstore _) (h.computed k hk hstore)

theorem Computed.congr {k : Nat} {c : Chain} {vars : VarId → Val} {slots slots' : SlotId → Val}
    (hc : Computed W g k c j vars slots) (hlhs : slots' g.lhs = slots g.lhs)
    (hrhs : slots' g.rhs = slots g.rhs) :
  Computed W g k c j vars slots'
  := by
  refine ⟨fun hlt => ?_, fun hlt => ?_, fun hlt => ?_⟩
  · rw [hlhs, hc.left hlt]
  · rw [hrhs, hc.right hlt]
  · rw [laneValue, hlhs, hrhs, hc.value hlt, laneValue]

theorem partly_congr {slots slots' : SlotId → Val} (hlhs : slots' g.lhs = slots g.lhs)
    (hrhs : slots' g.rhs = slots g.rhs) (hdest : slots' g.dest = slots g.dest) (m : Nat) :
  partly W g slots' m = partly W g slots m
  := by
  have hvalue : laneValue W g slots' = laneValue W g slots := by
    funext k
    rw [laneValue, hlhs, hrhs, laneValue]
  rw [partly, partly, hvalue, hdest]

theorem IsGroup.store_lt_succ_iff (hg : IsGroup f b constants width g chain) (hmember : j ∉ g.members)
    {k : Nat} (hk : k < width) :
  (chain k).store < j + 1 ↔ (chain k).store < j
  := by
  have hne : (chain k).store ≠ j := fun heq => hmember (heq ▸ hg.store_mem hk)
  omega

include hg hf hid hb hconstants hi h in
/-- An instruction between those of the group that does not interfere. -/
theorem Between.run_of_free {type : VarId → ValueType}
    (htype : ∀ v, i.def? = some v → f.varType v = type v)
    (huses : ∀ v ∈ i.uses, ¬IsHidden f width chain v) (hmember : j ∉ g.members)
    (hfree : Scan.interferes g.lhs g.rhs g.dest i = false) :
  Agree (Between f W id g width chain (j + 1)) (i.run W calls f.varType s) (i.run W calls type t)
  := by
  simp only [Scan.interferes, Bool.or_eq_false_iff, beq_eq_false_iff_ne] at hfree
  obtain ⟨hwritten, hread⟩ := hfree
  have hunwritten : ∀ slot ∈ [g.lhs, g.rhs, g.dest], i.writtenSlot? ≠ some slot := by
    intro slot hslot heq
    rw [heq, Option.any_some, List.contains_eq_mem, decide_eq_false_iff_not] at hwritten
    exact hwritten hslot
  have hagree : Agree (fun x y => x.1 = y.1 ∧ SameOn (· ≠ g.dest) x.2 y.2)
      (i.act W calls f.varType s.vars s.store) (i.act W calls type t.vars t.store) := by
    rw [← Instr.act_congr_type htype, ← Instr.act_congr fun v hv => h.vars v (huses v hv)]
    exact Instr.act_sameOn ⟨h.trace, h.slots⟩ fun slot hslot heq => hread (heq ▸ hslot)
  cases hs : i.act W calls f.varType s.vars s.store with
  | error stop =>
    rw [hs] at hagree
    rw [Instr.run, Instr.run, hs, show i.act W calls type t.vars t.store = _ from hagree]
    rfl
  | ok result =>
    obtain ⟨x, after⟩ := result
    rw [hs] at hagree
    obtain ⟨⟨_, after'⟩, ht, rfl, hsame⟩ := hagree
    have hrun := Instr.run_eq_ok.mpr ⟨x, after, hs, rfl⟩
    rw [hrun, Instr.run_eq_ok.mpr ⟨x, after', ht, rfl⟩]
    have hkept : ∀ slot ∈ [g.lhs, g.rhs, g.dest], after'.slots slot = t.store.slots slot :=
      fun slot hslot => Instr.slots_of_act ht (hunwritten slot hslot)
    refine ⟨_, rfl, hsame.1, hsame.2, fun v hv => ?_, ?_, ?_, fun k hk hstore => ?_⟩
    · simp only [setVar, h.vars v hv]
    · exact (equations_set hf W calls).holdAt_instr hf hid hb hi h.holds hrun
    · obtain ⟨m, hm, hstored, hdest⟩ := h.stored
      refine ⟨m, hm, fun k hk => (hg.store_lt_succ_iff hmember hk).trans (hstored k hk), ?_⟩
      change after.slots g.dest = if m = width then after'.slots g.dest else partly W g after'.slots m
      rw [Instr.slots_of_act hs (hunwritten g.dest (by simp)), hdest, hkept g.dest (by simp),
        partly_congr (hkept g.lhs (by simp)) (hkept g.rhs (by simp)) (hkept g.dest (by simp))]
    · have hnext := h.computed_succ hg hf hid hb hconstants hi hrun hk (Nat.le_of_succ_le hstore)
      exact hnext.congr (hkept g.lhs (by simp)) (hkept g.rhs (by simp))

include hg hf hid hb hi h in
/-- An instruction that is not in the group. -/
theorem Between.run_other (hconstants : AreConstants f constants) {type : VarId → ValueType}
    (htype : ∀ v, i.def? = some v → f.varType v = type v)
    (huses : ∀ v ∈ i.uses, ¬IsHidden f width chain v) (hmember : j ∉ g.members) :
  Agree (Between f W id g width chain (j + 1)) (i.run W calls f.varType s) (i.run W calls type t)
  := by
  -- Outside of the group the stores are the same, and the instruction may do anything.
  have houtside : ((∀ k < width, ∀ p ∈ (chain k).positions, j + 1 ≤ p)
        ∨ ∀ k < width, (chain k).store < j + 1) →
      ((∀ k < width, ∀ p ∈ (chain k).positions, j ≤ p) ∨ ∀ k < width, (chain k).store < j) →
      Agree (Between f W id g width chain (j + 1)) (i.run W calls f.varType s)
        (i.run W calls type t) := by
    intro hafter hbefore
    refine Agree.mono (((h.similar hbefore).run huses htype).and fun s' hrun => ?_)
      fun s' t' hst' => Between.of_similar hst'.1 hst'.2 hafter
    exact (equations_set hf W calls).holdAt_instr hf hid hb hi h.holds hrun
  have hpositions : ∀ {k}, k < width → ∀ p ∈ (chain k).positions, p ∈ g.members :=
    fun hk p hp => (hg.members p).mpr ⟨_, hk, hp⟩
  by_cases hlast : j ≤ (chain (width - 1)).store
  · rcases hg.free j hlast i hi hmember with hbefore | hfree
    · refine houtside (.inl fun k hk p hp => hbefore p (hpositions hk p hp)) ?_
      exact .inl fun k hk p hp => Nat.le_of_lt (hbefore p (hpositions hk p hp))
    · exact h.run_of_free hg hf hid hb hconstants hi htype huses hmember hfree
  · have hafter : ∀ k < width, (chain k).store < j := by
      intro k hk
      have hle := hg.member_le hf hid hb (hg.store_mem hk)
      omega
    exact houtside (.inr fun k hk => Nat.lt_succ_of_lt (hafter k hk)) (.inr hafter)

include hg hf hid hb hconstants hi h in
/-- A load or an operation of the group, which has no counterpart. -/
theorem Between.run_of_isPure (hmember : j ∈ g.members) (hpure : i.isPure = true) :
  ∃ s', i.run W calls f.varType s = .ok s' ∧ Between f W id g width chain (j + 1) s' t
  := by
  obtain ⟨x, hact⟩ := Instr.act_of_isPure hpure W calls f.varType s.vars s.store
  have hrun := Instr.run_eq_ok.mpr ⟨x, s.store, hact, rfl⟩
  have hne : ∀ k < width, (chain k).store ≠ j := by
    rintro k hk rfl
    obtain ⟨⟨index, hstore, -⟩, -⟩ := hg.chains k hk
    obtain rfl := Option.some.inj (hi.symm.trans hstore)
    cases hpure
  refine ⟨_, hrun, h.trace, h.slots, fun v hv => ?_, ?_, ?_, fun k hk hstore => ?_⟩
  · rw [← h.vars v hv]
    exact setVar_of_ne fun hdef => hv (hg.isHidden_of_def? hi hmember hdef)
  · exact (equations_set hf W calls).holdAt_instr hf hid hb hi h.holds hrun
  · obtain ⟨m, hm, hstored, hdest⟩ := h.stored
    refine ⟨m, hm, fun k hk => ?_, hdest⟩
    have := hne k hk
    rw [← hstored k hk]
    omega
  · exact h.computed_succ hg hf hid hb hconstants hi hrun hk (Nat.le_of_succ_le hstore)

include hg hf hid hb hconstants h in
/-- The store of a lane puts its value into the destination. -/
theorem Between.run_store (calls : Caller) {k : Nat} (hk : k < width) (hj : (chain k).store = j)
    (hi : b.instrs[j]? = some i) :
  ∃ s', i.run W calls f.varType s = .ok s' ∧ s'.vars = s.vars
    ∧ s'.store = s.store.set g.dest (partly W g t.store.slots (k + 1))
  := by
  subst hj
  obtain ⟨⟨index, hstore, hindex⟩, -⟩ := hg.chains k hk
  obtain rfl := Option.some.inj (hi.symm.trans hstore)
  obtain ⟨m, hm, hstored, hdest⟩ := h.stored
  -- The stores come in the order of the lanes.
  obtain rfl : m = k := by
    have hnot := (hstored k hk).not.mp (Nat.lt_irrefl _)
    by_contra hne
    have hlt : m < k := by omega
    exact Nat.lt_irrefl m ((hstored m (by omega)).mp (hg.increasing m k hlt hk))
  rw [if_neg (by omega)] at hdest
  have hvalue := (h.computed m hk le_rfl).value (hg.lt_store hf hid hb hk).2.2
  have hdefined := hf.isDefinedAt_of_mem_uses hid hb hi (v := index) (by simp [Instr.uses])
  have hposition : s.vars index = .int (g.start + m : Nat) := hconstants.vars hindex h.holds hdefined
  refine ⟨⟨s.vars, _⟩, Instr.run_eq_ok.mpr ⟨.nothing, _, rfl, rfl⟩, rfl, ?_⟩
  simp only [hdest, hposition, hvalue, partly_succ]

include hg hf hid hb hconstants hi h in
/-- A store of the group before the last one. -/
theorem Between.run_store_of_lt {k : Nat} (hk : k + 1 < width) (hj : (chain k).store = j) :
  ∃ s', i.run W calls f.varType s = .ok s' ∧ Between f W id g width chain (j + 1) s' t
  := by
  obtain ⟨s', hrun, hvars, hstore⟩ := h.run_store hg hf hid hb hconstants calls (by omega) hj hi
  refine ⟨s', hrun, ?_, fun slot hslot => ?_, fun v hv => ?_, ?_, ?_, fun k' hk' hle => ?_⟩
  · rw [hstore]
    exact h.trace
  · rw [hstore, ← h.slots slot hslot]
    exact Function.update_of_ne hslot _ _
  · rw [hvars, h.vars v hv]
  · exact (equations_set hf W calls).holdAt_instr hf hid hb hi h.holds hrun
  · refine ⟨k + 1, by omega, fun k' hk' => ?_, ?_⟩
    · have hiff : (chain k).store < (chain k').store ↔ k < k' := hg.store_lt_iff (by omega) hk'
      rw [← hj]
      omega
    · rw [hstore, if_neg (by omega)]
      exact Function.update_self _ _ _
  · exact h.computed_succ hg hf hid hb hconstants hi hrun hk' (Nat.le_of_succ_le hle)

include hg hf hid hb hconstants hi h in
/-- The last store of the group, after which the vector instructions run. -/
theorem Between.run_last {type : VarId → ValueType} {n : VarId} (hwidth : 0 < width)
    (htype : ∀ k : Nat, k < 3 → type (n + k) = laneVector g width) (hn : f.varTypes.length = n)
    (hj : (chain (width - 1)).store = j) :
  Agree (Between f W id g width chain (j + 1)) (i.run W calls f.varType s)
    (runAll W calls type (laneInstrs g n) t)
  := by
  obtain ⟨s', hrun, hvars, hstore⟩ :=
    h.run_store hg hf hid hb hconstants calls (by omega) hj hi
  obtain ⟨vars, hlanes, hkept⟩ := runAll_laneInstrs W calls (mayTrap_of_isLaneWise hg.laneWise)
    htype t
  rw [hrun, hlanes]
  rw [show width - 1 + 1 = width by omega] at hstore
  refine ⟨_, rfl, Between.of_similar ⟨?_, fun v hv => ?_⟩ ?_ (.inr fun k hk => ?_)⟩
  · rw [hstore]
    have hslots : Function.update s.store.slots g.dest (partly W g t.store.slots width)
        = Function.update t.store.slots g.dest (partly W g t.store.slots width) := by
      funext slot
      by_cases hslot : slot = g.dest
      · simp [hslot]
      · simp [hslot, h.slots slot hslot]
    simp only [Store.set, hslots, h.trace]
  · rw [hvars, h.vars v hv]
    exact (hkept v (Nat.lt_of_not_le fun hle => hv (.inl (hn ▸ hle)))).symm
  · exact (equations_set hf W calls).holdAt_instr hf hid hb hi h.holds hrun
  · have hle := hg.member_le hf hid hb (hg.store_mem hk)
    omega

end

end

end Lanes

end FormCompiler.Flow
