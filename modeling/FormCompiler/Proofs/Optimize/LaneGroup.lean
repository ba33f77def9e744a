import FormCompiler.Optimize.Lanes
import FormCompiler.Proofs.Flow.Verify

/-!
# Groups of lanes

What a group that the search finds consists of. Each lane is a *chain*: two loads of elements, an
operation on what they load, and a store of the outcome, all for the same index. The stores come in
the order of their indices, and what stands between the instructions of the group does not interfere
with them (`IsGroup`).
-/

namespace FormCompiler.Flow.Lanes

/-- The positions of the instructions of a lane, and the variables that they define. -/
structure Chain where
  store : Nat
  operation : Nat
  left : Nat
  right : Nat
  value : VarId
  lhs : VarId
  rhs : VarId

/-- The positions of a chain, in the order in which they are found. -/
def Chain.positions (c : Chain) : List Nat := [c.store, c.operation, c.left, c.right]

/-- A variable is a constant index. -/
def IsIndex (constants : List (VarId × Const)) (v : VarId) (n : Nat) : Prop :=
  constants.lookup v = some (.int n)

/-- A load of an element with a constant index, into a variable that is read once. -/
def IsLoad (f : Function) (b : Block) (constants : List (VarId × Const)) (position : Nat) (v : VarId)
    (slot : SlotId) (n : Nat) : Prop :=
  f.useCount v = 1 ∧ ∃ index, b.instrs[position]? = some (.loadElement v slot index)
    ∧ IsIndex constants index n

/-- The instructions of a lane. -/
structure IsChain (f : Function) (b : Block) (constants : List (VarId × Const)) (op : BinaryOp)
    (lhs rhs dest : SlotId) (n : Nat) (c : Chain) : Prop where
  store : ∃ index, b.instrs[c.store]? = some (.storeElement dest index c.value)
    ∧ IsIndex constants index n
  once : f.useCount c.value = 1
  operation : b.instrs[c.operation]? = some (.set c.value (.binary op c.lhs c.rhs))
  left : IsLoad f b constants c.left c.lhs lhs n
  right : IsLoad f b constants c.right c.rhs rhs n

/-- What the array in a slot is like, if it has enough numbers as elements. -/
def HasLanes (f : Function) (slot : SlotId) (element : ValueType) (stop : Nat) : Prop :=
  ∃ length, (f.slotType slot).array? = some (element, length) ∧ stop ≤ length

/-- The instructions of a group, of which each is in one of the chains. -/
structure IsGroup (f : Function) (b : Block) (constants : List (VarId × Const)) (width : Nat)
    (g : Group) (chain : Nat → Chain) : Prop where
  chains : ∀ k < width,
    IsChain f b constants g.op g.lhs g.rhs g.dest (g.start + k) (chain k)
  types : ∀ k < width, f.varType (chain k).value = g.element
  increasing : ∀ k k', k < k' → k' < width → (chain k).store < (chain k').store
  members : ∀ p, p ∈ g.members ↔ ∃ k < width, p ∈ (chain k).positions
  free : ∀ p ≤ (chain (width - 1)).store, ∀ i, b.instrs[p]? = some i → p ∉ g.members →
    (∀ m ∈ g.members, p < m) ∨ Scan.interferes g.lhs g.rhs g.dest i = false
  last : g.last = g.members.foldl max (chain (width - 1)).store
  laneWise : Verify.isLaneWise g.op g.element = true
  dest : HasLanes f g.dest g.element (g.start + width)
  lhs : HasLanes f g.lhs g.element (g.start + width)
  rhs : HasLanes f g.rhs g.element (g.start + width)
  indices : ∀ v ∈ g.indices, ∃ n, constants.lookup v = some n

/-! ## Searching -/

theorem mapM_eq_some {α β : Type} {f : α → Option β} {xs : List α} {ys : List β}
    (h : xs.mapM f = some ys) :
  ys.length = xs.length ∧ ∀ (k : Nat) x, xs[k]? = some x → ∃ y, ys[k]? = some y ∧ f x = some y
  := by
  induction xs generalizing ys with
  | nil =>
    obtain rfl : [] = ys := by simpa using h
    simp
  | cons x xs ih =>
    rw [List.mapM_cons] at h
    obtain ⟨y, hy, h⟩ := Option.bind_eq_some_iff.mp h
    obtain ⟨ys', hys', h⟩ := Option.bind_eq_some_iff.mp h
    obtain rfl := Option.some.inj h
    obtain ⟨hlength, hall⟩ := ih hys'
    refine ⟨by simp [hlength], fun k x' hx' => ?_⟩
    cases k with
    | zero =>
      obtain rfl : x = x' := by simpa using hx'
      exact ⟨y, rfl, hy⟩
    | succ k => exact hall k x' (by simpa using hx')

namespace Scan

variable {f : Function} {b : Block} {constants : List (VarId × Const)}
variable {n p start width position : Nat} {slot dest : SlotId}

@[simp]
theorem instr?_eq (p : Nat) :
  Scan.instr? ⟨f, b.body, constants⟩ p = b.instrs[p]?
  := by
  simp [Scan.instr?, Block.instrs]

theorem isIndex_of_index? {v : VarId} (h : Scan.index? ⟨f, b.body, constants⟩ v = some n) :
  IsIndex constants v n
  := by
  unfold Scan.index? at h
  obtain ⟨c, hc, h⟩ := Option.bind_eq_some_iff.mp h
  obtain ⟨m, hm, h⟩ := Option.bind_eq_some_iff.mp h
  split at h
  · next hnonneg =>
    obtain rfl := Option.some.inj h
    cases c with
    | int k =>
      obtain rfl := Option.some.inj hm
      rw [IsIndex, hc, Int.toNat_of_nonneg hnonneg]
    | float | bool | str => cases hm
  · cases h

theorem of_singleUse? {v : VarId} (h : Scan.singleUse? ⟨f, b.body, constants⟩ v = some p) :
  f.useCount v = 1 ∧ ∃ i, b.instrs[p]? = some i ∧ i.def? = some v
  := by
  unfold Scan.singleUse? at h
  split at h
  · next hcount =>
    obtain ⟨hlt, hdef, -⟩ := List.findIdx?_eq_some_iff_getElem.mp h
    exact ⟨hcount, b.body[p].instr, by simp [Block.instrs, hlt], by simpa using hdef⟩
  · cases h

theorem isLoad_of_loadAt? {v index : VarId} (h : Scan.loadAt? ⟨f, b.body, constants⟩ v n = some (slot, p, index)) :
  IsLoad f b constants p v slot n ∧ IsIndex constants index n
  := by
  unfold Scan.loadAt? at h
  obtain ⟨p', hp, hinstr⟩ := Option.bind_eq_some_iff.mp h
  obtain ⟨i, hi, hload⟩ := Option.bind_eq_some_iff.mp hinstr
  obtain ⟨hcount, i', hi', hdef⟩ := of_singleUse? hp
  rw [instr?_eq] at hi
  split at hload
  · next dst slot' index' =>
    obtain ⟨n', hn, hresult⟩ := Option.bind_eq_some_iff.mp hload
    split at hresult
    · next heq =>
      obtain ⟨rfl, rfl, rfl⟩ : slot' = slot ∧ p' = p ∧ index' = index := by simpa using hresult
      obtain rfl := Option.some.inj (hi.symm.trans hi')
      obtain rfl : dst = v := Option.some.inj hdef
      have hindex := isIndex_of_index? hn
      rw [heq] at hindex
      exact ⟨⟨hcount, index', hi, hindex⟩, hindex⟩
    · cases hresult
  · cases hload

/-- A lane is a chain. -/
theorem exists_isChain_of_lane? {store : Nat} {lane : Lane}
    (h : Scan.lane? ⟨f, b.body, constants⟩ store n = some lane) :
  ∃ dest c, IsChain f b constants lane.op lane.lhs lane.rhs dest n c
    ∧ c.store = store ∧ c.value = lane.value ∧ lane.positions = c.positions
    ∧ ∀ v ∈ lane.indices, IsIndex constants v n
  := by
  unfold Scan.lane? at h
  obtain ⟨i, hi, h⟩ := Option.bind_eq_some_iff.mp h
  rw [instr?_eq] at hi
  split at h
  · next dest index value =>
    obtain ⟨n', hn, h⟩ := Option.bind_eq_some_iff.mp h
    split at h
    · cases h
    · next heq =>
      obtain rfl : n' = n := not_not.mp heq
      obtain ⟨position, hposition, h⟩ := Option.bind_eq_some_iff.mp h
      obtain ⟨i', hi', h⟩ := Option.bind_eq_some_iff.mp h
      obtain ⟨hcount, i'', hi'', hdef⟩ := of_singleUse? hposition
      rw [instr?_eq] at hi'
      obtain rfl := Option.some.inj (hi'.symm.trans hi'')
      split at h
      · next dst op lhs rhs =>
        obtain ⟨⟨lhsSlot, left, lhsIndex⟩, hleft, h⟩ := Option.bind_eq_some_iff.mp h
        obtain ⟨⟨rhsSlot, right, rhsIndex⟩, hright, h⟩ := Option.bind_eq_some_iff.mp h
        obtain rfl := Option.some.inj h
        obtain rfl : dst = value := Option.some.inj hdef
        have hindex := isIndex_of_index? hn
        obtain ⟨hload, hlhsIndex⟩ := isLoad_of_loadAt? hleft
        obtain ⟨hload', hrhsIndex⟩ := isLoad_of_loadAt? hright
        refine ⟨dest, ⟨store, position, left, right, dst, lhs, rhs⟩,
          ⟨⟨index, hi, hindex⟩, hcount, hi', hload, hload'⟩, rfl, rfl, rfl, ?_⟩
        simp [hindex, hlhsIndex, hrhsIndex]
      · cases h
  · cases h

theorem hasLanes_of_elementType? {element : ValueType}
    (h : Scan.elementType? ⟨f, b.body, constants⟩ slot start width = some element) :
  HasLanes f slot element (start + width)
  := by
  unfold Scan.elementType? at h
  obtain ⟨⟨element', length⟩, harray, h⟩ := Option.bind_eq_some_iff.mp h
  simp only at h
  split at h
  · next hle =>
    obtain rfl := Option.some.inj h
    exact ⟨length, harray, hle.2⟩
  · cases h

theorem mem_storesFrom :
  p ∈ Scan.storesFrom ⟨f, b.body, constants⟩ dest position
    ↔ position ≤ p ∧ ∃ index value, b.instrs[p]? = some (.storeElement dest index value)
  := by
  simp only [Scan.storesFrom, List.mem_filter, List.mem_range, Bool.and_eq_true, decide_eq_true_eq,
    instr?_eq]
  constructor
  · rintro ⟨-, hle, hmatch⟩
    refine ⟨hle, ?_⟩
    split at hmatch
    · next slot index value hi =>
      obtain rfl : slot = dest := by simpa using hmatch
      exact ⟨index, value, hi⟩
    · cases hmatch
  · rintro ⟨hle, index, value, hi⟩
    have hlt := (List.getElem?_eq_some_iff.mp hi).1
    refine ⟨by simpa [Block.instrs] using hlt, hle, ?_⟩
    rw [hi]
    simp

theorem pairwise_storesFrom (s : Scan) (dest : SlotId) (position : Nat) :
  (s.storesFrom dest position).Pairwise (· < ·)
  := List.pairwise_lt_range.filter _

/-- Lanes with the same operator and slots give a chain each. -/
theorem exists_chain {op : BinaryOp} {lhs rhs : SlotId} {k : Nat} {stores : List Nat} {lanes : List Lane}
    (hstores : stores ⊆ Scan.storesFrom ⟨f, b.body, constants⟩ dest position)
    (hlanes : stores.zipIdx.mapM (fun x => Scan.lane? ⟨f, b.body, constants⟩ x.1 (start + x.2))
      = some lanes)
    (huniform : ∀ lane ∈ lanes, lane.op = op ∧ lane.lhs = lhs ∧ lane.rhs = rhs) (hk : k < stores.length) :
  ∃ c lane, lanes[k]? = some lane ∧ stores[k]? = some c.store ∧ lane.positions = c.positions
    ∧ c.value = lane.value ∧ IsChain f b constants op lhs rhs dest (start + k) c
    ∧ ∀ v ∈ lane.indices, IsIndex constants v (start + k)
  := by
  have hget : stores[k]? = some stores[k] := List.getElem?_eq_getElem hk
  obtain ⟨lane, hlane, hfound⟩ := (mapM_eq_some hlanes).2 k (stores[k], k) (by simp [hget])
  obtain ⟨dest', c, hc, hstore, hvalue, hpositions, hindices⟩ := exists_isChain_of_lane? hfound
  obtain ⟨rfl, rfl, rfl⟩ := huniform lane (List.mem_of_getElem? hlane)
  obtain ⟨-, index, value, hi⟩ := mem_storesFrom.mp (hstores (List.mem_of_getElem? hget))
  obtain ⟨index', hi', -⟩ := hc.store
  rw [hstore] at hi'
  obtain ⟨rfl, -⟩ := Instr.storeElement.inj (Option.some.inj (hi.symm.trans hi'))
  exact ⟨c, lane, hlane, by rw [hget, hstore], hpositions, hvalue, hc, hindices⟩

/-- What the search finds is a group. -/
theorem exists_isGroup {g : Group} (hwidth : 0 < width)
    (h : Scan.groupAt? ⟨f, b.body, constants⟩ width position = some g) :
  ∃ chain, IsGroup f b constants width g chain
  := by
  unfold Scan.groupAt? at h
  obtain ⟨i, -, h⟩ := Option.bind_eq_some_iff.mp h
  split at h
  case h_2 => cases h
  next dest index value =>
  obtain ⟨start, -, h⟩ := Option.bind_eq_some_iff.mp h
  simp only at h
  split at h
  · cases h
  next hshape =>
  have hlength := not_not.mp (not_or.mp hshape).2
  obtain ⟨lanes, hlanes, h⟩ := Option.bind_eq_some_iff.mp h
  obtain ⟨first, -, h⟩ := Option.bind_eq_some_iff.mp h
  obtain ⟨last, hlast, h⟩ := Option.bind_eq_some_iff.mp h
  obtain ⟨element, helement, h⟩ := Option.bind_eq_some_iff.mp h
  split at h
  case isFalse => cases h
  next hconditions =>
  obtain rfl := Option.some.inj h
  clear h
  simp only [Bool.and_eq_true, List.all_eq_true, beq_iff_eq, instr?_eq] at hconditions
  obtain ⟨⟨⟨⟨huniform, hlaneWise⟩, hlhs⟩, hrhs⟩, hfree⟩ := hconditions
  have hlanesLength : lanes.length = width := by
    rw [(mapM_eq_some hlanes).1, List.length_zipIdx, hlength]
  have hincreasing := (pairwise_storesFrom ⟨f, b.body, constants⟩ dest position).sublist
    (List.take_sublist width _)
  generalize hstores : (Scan.storesFrom ⟨f, b.body, constants⟩ dest position).take width = stores at *
  have hchain : ∀ k, ∃ c, k < width → ∃ lane, lanes[k]? = some lane ∧ stores[k]? = some c.store
      ∧ lane.positions = c.positions ∧ c.value = lane.value
      ∧ IsChain f b constants first.op first.lhs first.rhs dest (start + k) c
      ∧ ∀ v ∈ lane.indices, IsIndex constants v (start + k) := by
    intro k
    by_cases hk : k < width
    · obtain ⟨c, hc⟩ := exists_chain (hstores ▸ List.take_subset width _) hlanes
        (fun lane hlane => and_assoc.mp (huniform lane hlane).1) (hlength ▸ hk)
      exact ⟨c, fun _ => hc⟩
    · exact ⟨⟨0, 0, 0, 0, 0, 0, 0⟩, fun h => absurd h hk⟩
  choose chain hchain using hchain
  have hmem : ∀ lane ∈ lanes, ∃ k < width, lane.positions = (chain k).positions
      ∧ ∀ v ∈ lane.indices, IsIndex constants v (start + k) := by
    intro lane hlane
    obtain ⟨k, hk⟩ := List.getElem?_of_mem hlane
    have hlt : k < width := hlanesLength ▸ (List.getElem?_eq_some_iff.mp hk).1
    obtain ⟨lane', hk', -, hpositions, -, -, hindices⟩ := hchain k hlt
    obtain rfl := Option.some.inj (hk.symm.trans hk')
    exact ⟨k, hlt, hpositions, hindices⟩
  have hmembers : ∀ p, p ∈ (lanes.flatMap (·.positions)).eraseDups
      ↔ ∃ k < width, p ∈ (chain k).positions := by
    intro p
    rw [List.mem_eraseDups, List.mem_flatMap]
    constructor
    · rintro ⟨lane, hlane, hp⟩
      obtain ⟨k, hk, hpositions, -⟩ := hmem lane hlane
      exact ⟨k, hk, hpositions ▸ hp⟩
    · rintro ⟨k, hk, hp⟩
      obtain ⟨lane, hlane, -, hpositions, -⟩ := hchain k hk
      exact ⟨lane, List.mem_of_getElem? hlane, hpositions ▸ hp⟩
  have hlastStore : (chain (width - 1)).store = last := by
    obtain ⟨-, -, hget, -⟩ := hchain (width - 1) (by omega)
    rw [List.getLast?_eq_getElem?, hlength, hget] at hlast
    exact Option.some.inj hlast
  refine ⟨chain, ?_, ?_, ?_, hmembers, ?_, by rw [hlastStore], hlaneWise,
    hasLanes_of_elementType? helement, hasLanes_of_elementType? hlhs, hasLanes_of_elementType? hrhs, ?_⟩
  · intro k hk
    obtain ⟨-, -, -, -, -, hc, -⟩ := hchain k hk
    exact hc
  · intro k hk
    obtain ⟨lane, hget, -, -, hvalue, -⟩ := hchain k hk
    rw [hvalue]
    exact (huniform lane (List.mem_of_getElem? hget)).2
  · intro k k' hlt hk'
    obtain ⟨-, -, hget, -⟩ := hchain k (hlt.trans hk')
    obtain ⟨-, -, hget', -⟩ := hchain k' hk'
    obtain ⟨hk, hstore⟩ := List.getElem?_eq_some_iff.mp hget
    obtain ⟨hk', hstore'⟩ := List.getElem?_eq_some_iff.mp hget'
    rw [← hstore, ← hstore']
    exact List.pairwise_iff_getElem.mp hincreasing k k' hk hk' hlt
  · intro p hp i hi hmember
    rw [hlastStore] at hp
    have hcondition := hfree p (List.mem_range.mpr (Nat.lt_succ_of_le hp))
    simp only [Bool.or_eq_true, List.contains_iff_mem, List.all_eq_true, decide_eq_true_eq, hi,
      Option.any_some, Bool.not_eq_true'] at hcondition
    rcases hcondition with (hin | hbefore) | hfree
    · exact absurd hin hmember
    · exact .inl hbefore
    · exact .inr hfree
  · intro v hv
    obtain ⟨lane, hlane, hv⟩ := List.mem_flatMap.mp hv
    obtain ⟨k, -, -, hindices⟩ := hmem lane hlane
    exact ⟨_, hindices v hv⟩

end Scan

end FormCompiler.Flow.Lanes
