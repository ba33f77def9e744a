import FormCompiler.Proofs.Lowering.Rounds

/-!
# Walking through loops that count

A loop counts if its initial form declares a counter with a literal, its test compares the counter with a
literal, its step adds a literal to it or subtracts one, and nothing in the body assigns to it. Then the
code of these three forms is known exactly.
-/

namespace FormCompiler

open FormCompiler.Flow

variable {e start test step : Expr} {name : String}

/-! ## What is recognized -/

theorem Expr.eq_name_of_isName (h : e.isName name = true) :
  ∃ id span, e = .node id span (.name name)
  := by
  obtain ⟨id, span, shape⟩ := e
  cases shape
  case name other =>
    obtain rfl : other = name := by simpa [Expr.isName] using h
    exact ⟨id, span, rfl⟩
  all_goals simp [Expr.isName] at h

theorem Expr.eq_literal_of_intLiteral? {n : Int} (h : e.intLiteral? = some n) :
  ∃ id span, e = .node id span (.literal (.int n))
  := by
  obtain ⟨id, span, shape⟩ := e
  cases shape
  case literal value =>
    cases value
    case int m =>
      obtain rfl : m = n := by simpa [Expr.intLiteral?] using h
      exact ⟨id, span, rfl⟩
    all_goals simp [Expr.intLiteral?] at h
  all_goals simp [Expr.intLiteral?] at h

theorem Expr.shape_of_counter? (h : e.counter? = some (name, start)) :
  ∃ type, e.shape = .declare true name type start
  := by
  unfold Expr.counter? at h
  split at h
  · next hshape =>
    obtain ⟨rfl, rfl⟩ : _ = name ∧ _ = start := by simpa using h
    exact ⟨_, hshape⟩
  · cases h

theorem isOperation_of_boundOf? {cmp : BinaryOp} {n : Int} (h : boundOf? name test = some (cmp, n)) :
  test.IsOperation cmp name n ∧ cmp ∈ [.lt, .le, .gt, .ge, .ne]
  := by
  unfold boundOf? at h
  split at h
  · next op lhs rhs hshape =>
    simp only [Option.bind_eq_bind, Option.bind_eq_some_iff, Option.guard_eq_some', Bool.and_eq_true,
      Option.pure_def, Option.some.injEq, Prod.mk.injEq] at h
    obtain ⟨-, ⟨hop, hlhs⟩, n, hrhs, rfl, rfl⟩ := h
    exact ⟨⟨lhs, rhs, hshape, hlhs, hrhs⟩, by simpa using hop⟩
  · cases h

theorem isStep_of_stepOf? {n : Int} (h : stepOf? name step = some n) :
  step.IsStep name n
  := by
  unfold stepOf? at h
  split at h
  · next target value hshape =>
    split at h
    · next op lhs rhs hvalue =>
      simp only [Option.bind_eq_bind, Option.bind_eq_some_iff, Option.guard_eq_some', Bool.and_eq_true,
        beq_iff_eq] at h
      obtain ⟨-, ⟨rfl, hlhs⟩, amount, hrhs, hamount⟩ := h
      refine ⟨value, op, amount, hshape, ⟨lhs, rhs, hvalue, hlhs, hrhs⟩, ?_⟩
      cases op <;> simp_all [Word.checked?]
    · cases h
  · cases h

/-- What a loop is like whose counter is recognized. -/
theorem inductionOf?_eq_some {slot : SlotId} {body : List Expr} {i : Induction}
    (h : inductionOf? slot name start test step body = some i) :
  i.slot = slot ∧ start.intLiteral? = some i.init
    ∧ (test.IsOperation i.cmp name i.bound ∧ i.cmp ∈ [.lt, .le, .gt, .ge, .ne])
    ∧ step.IsStep name i.step ∧ body.any (·.assigns name) = false
  := by
  simp only [inductionOf?, Option.bind_eq_bind, Option.bind_eq_some_iff, Option.guard_eq_some',
    Option.pure_def, Option.some.injEq, Prod.exists] at h
  obtain ⟨init, hinit, cmp, bound, hbound, amount, hamount, -, hbody, rfl⟩ := h
  exact ⟨rfl, hinit, isOperation_of_boundOf? hbound, isStep_of_stepOf? hamount, by simpa using hbody⟩

/-! ## The code of the three forms -/

namespace LowerState

variable {s s' s'' : LowerState} {instrs instrs' : List Instr}

/-- Instructions have been added to the current block, and to no other. -/
structure Adds (s s' : LowerState) (instrs : List Instr) : Prop where
  isOpen : s'.isOpen = true
  current : s'.current = s.current
  lt : s'.current < s'.function.blocks.length
  instrs : (s'.function.block s.current).instrs = (s.function.block s.current).instrs ++ instrs
  others : ∀ id, id ≠ s.current → s'.function.block id = s.function.block id
  frames : s'.frames = s.frames

theorem Adds.trans (h : s.Adds s' instrs) (h' : s'.Adds s'' instrs') :
  s.Adds s'' (instrs ++ instrs')
  := by
  refine ⟨h'.isOpen, h'.current.trans h.current, h'.lt, ?_, fun id hid => ?_, h'.frames.trans h.frames⟩
  · rw [← List.append_assoc, ← h.instrs, ← h.current]
    exact h'.instrs
  · rw [h'.others id (h.current ▸ hid), h.others id hid]

end LowerState

namespace Lower

open LowerState

section

variable {c : LowerContext} {s : LowerState} {e : Expr} {name : String} {slot : SlotId} {n : Int} {op : BinaryOp}

theorem adds_emit (hopen : s.isOpen = true) (hcurrent : s.current < s.function.blocks.length) (i : Instr)
    (span : Option Span) :
  Ensures c s (emit i span) fun _ s' => s.Adds s' [i] ∧ s'.function.varTypes = s.function.varTypes
  := by
  rintro _ _ ⟨⟩
  have hblock := Function.block_modifyBlock hcurrent fun b => { b with body := b.body ++ [⟨i, span⟩] }
  refine ⟨⟨hopen, rfl, (List.length_modify _ _ _).ge.trans_lt' hcurrent, ?_, fun id hid => ?_, rfl⟩, rfl⟩
  · change ((s.function.modifyBlock s.current _).block s.current).instrs = _
    rw [hblock, if_pos rfl]
    simp [Block.instrs]
  · exact (hblock id).trans (if_neg hid)

theorem adds_define (hopen : s.isOpen = true) (hcurrent : s.current < s.function.blocks.length)
    (type : ValueType) (span : Option Span) (instr : VarId → Instr) :
  Ensures c s (define type span instr) fun v s' => s.Adds s' [instr v]
    ∧ v = s.function.varTypes.length ∧ v < s'.function.varTypes.length
  := by
  set s₁ : LowerState := { s with function := (s.function.freshVar type).2 } with hs₁
  have hvar : Ensures c s (freshVar type) fun v s' => v = s.function.varTypes.length ∧ s' = s₁ := by
    rintro _ _ ⟨⟩
    exact ⟨rfl, rfl⟩
  refine hvar.bind ?_
  rintro v _ ⟨rfl, rfl⟩
  refine (adds_emit (s := s₁) hopen hcurrent _ span).bind fun _ s' ⟨hadds, hvars⟩ => .pure ⟨?_, rfl, ?_⟩
  · exact ⟨hadds.isOpen, hadds.current, hadds.lt, hadds.instrs, hadds.others, hadds.frames⟩
  · rw [hvars]
    simp [hs₁, Function.freshVar]

theorem adds_name (hopen : s.isOpen = true) (hcurrent : s.current < s.function.blocks.length)
    (hslot : s.frames.slot? name = some slot) (he : e.isName name = true) :
  Ensures c s (expr .operand e) fun value s' => ∃ v, value = some v ∧ s.Adds s' [.load v slot]
    ∧ v < s'.function.varTypes.length
  := by
  obtain ⟨id, span, rfl⟩ := Expr.eq_name_of_isName he
  simp only [expr, form, Lower.name]
  refine .bind_isOpen ?_
  rw [if_pos hopen, bind_assoc]
  refine .bind_slot? ?_
  rw [hslot]
  refine .bind (m := fun v s' => s.Adds s' [.load v slot] ∧ v < s'.function.varTypes.length) (.bind_get ?_) ?_
  · refine (adds_define hopen hcurrent _ _ _).mono ?_
    rintro _ s' ⟨hadds, rfl, hlt⟩
    exact ⟨hadds, hlt⟩
  · rintro v s' ⟨hadds, hlt⟩
    exact .pure ⟨v, rfl, hadds, hlt⟩

theorem adds_literal (hopen : s.isOpen = true) (hcurrent : s.current < s.function.blocks.length)
    (he : e.intLiteral? = some n) :
  Ensures c s (expr .operand e) fun value s' => value = some s.function.varTypes.length
    ∧ s.Adds s' [.set s.function.varTypes.length (.const (.int n))]
  := by
  obtain ⟨id, span, rfl⟩ := Expr.eq_literal_of_intLiteral? he
  simp only [expr, form, Literal.const]
  refine .bind_isOpen ?_
  rw [if_pos hopen]
  refine .bind_reads (reads_typeOf id span) fun type => ?_
  refine (adds_define hopen hcurrent _ _ _).bind ?_
  rintro _ s' ⟨hadds, rfl, -⟩
  exact .pure ⟨rfl, hadds⟩

/-- An operand that has a value. -/
theorem Ensures.bind_need_some {β : Type} {v : VarId} {k : Option VarId → Lower β} {post : β → LowerState → Prop}
    (h : Ensures c s (k (some v)) post) :
  Ensures c s (need e (some v) >>= k) post
  := h

/-- An operation on a counter and a literal. -/
theorem adds_operation (hopen : s.isOpen = true) (hcurrent : s.current < s.function.blocks.length)
    (hslot : s.frames.slot? name = some slot) (he : e.IsOperation op name n) :
  Ensures c s (expr .operand e) fun value s' => ∃ a b v, a ≠ b ∧ value = some v
    ∧ s.Adds s' [.load a slot, .set b (.const (.int n)), .set v (.binary op a b)]
  := by
  obtain ⟨lhs, rhs, hshape, hlhs, hrhs⟩ := he
  obtain ⟨id, span, rfl⟩ : ∃ id span, e = .node id span (.binary op lhs rhs) := by
    obtain ⟨id, span, shape⟩ := e
    exact ⟨id, span, congrArg _ hshape⟩
  simp only [expr, form]
  refine .bind_isOpen ?_
  rw [if_pos hopen]
  refine (adds_name hopen hcurrent hslot hlhs).bind ?_
  rintro _ s₁ ⟨a, rfl, hadds₁, hlt⟩
  refine .bind_need_some ((adds_literal hadds₁.isOpen hadds₁.lt hrhs).bind ?_)
  rintro _ s₂ ⟨rfl, hadds₂⟩
  refine .bind_need_some (.bind_reads (reads_typeOf id span) fun type => ?_)
  refine (adds_define hadds₂.isOpen hadds₂.lt _ _ _).bind ?_
  rintro v s₃ ⟨hadds₃, -⟩
  exact .pure ⟨a, _, v, hlt.ne, rfl, (hadds₁.trans hadds₂).trans hadds₃⟩

/-- A step that adds a literal to a counter or subtracts one. -/
theorem adds_step (hopen : s.isOpen = true) (hcurrent : s.current < s.function.blocks.length)
    (hslot : s.frames.slot? name = some slot) {change : Int} (he : e.IsStep name change) :
  Ensures c s (expr .operand e) fun _ s' => ∃ a b v op n, a ≠ b
    ∧ (op = .add ∧ change = n ∨ op = .sub ∧ change = -n)
    ∧ s.Adds s' [.load a slot, .set b (.const (.int n)), .set v (.binary op a b), .store slot v]
  := by
  obtain ⟨value, op, n, hshape, hvalue, hop⟩ := he
  obtain ⟨id, span, rfl⟩ : ∃ id span, e = .node id span (.assign name value) := by
    obtain ⟨id, span, shape⟩ := e
    exact ⟨id, span, congrArg _ hshape⟩
  simp only [expr, form]
  refine .bind_isOpen ?_
  rw [if_pos hopen]
  refine .bind_slot? (.bind_required fun target htarget => ?_)
  obtain rfl := Option.some.inj (htarget.symm.trans hslot)
  refine (adds_operation hopen hcurrent hslot hvalue).bind ?_
  rintro _ s₁ ⟨a, b, v, hne, rfl, hadds₁⟩
  refine .bind_need_some ((adds_emit hadds₁.isOpen hadds₁.lt _ _).bind ?_)
  rintro _ s₂ ⟨hadds₂, -⟩
  exact .pure ⟨a, b, v, op, n, hne, hop, hadds₁.trans hadds₂⟩

/-- The initial form of a loop that counts: the last thing it does is to store the literal in the counter. -/
theorem ensures_start {start : Expr} (hopen : s.isOpen = true) (hcurrent : s.current < s.function.blocks.length)
    (hframes : s.frames ≠ []) (he : e.counter? = some (name, start)) (hstart : start.intLiteral? = some n) :
  Ensures c s (expr .operand e) fun _ s' => ∃ slot earlier v, s'.frames.slot? name = some slot
    ∧ (s'.function.block s'.current).instrs = earlier ++ [.set v (.const (.int n)), .store slot v]
  := by
  obtain ⟨type, hshape⟩ := Expr.shape_of_counter? he
  obtain ⟨id, span, rfl⟩ : ∃ id span, e = .node id span (.declare true name type start) := by
    obtain ⟨id, span, shape⟩ := e
    exact ⟨id, span, congrArg _ hshape⟩
  have halloc : start.isAlloc = false := by
    obtain ⟨sid, sspan, rfl⟩ := Expr.eq_literal_of_intLiteral? hstart
    rfl
  simp only [expr, form, bindValue, bind_assoc, pure_bind, halloc, Bool.false_and]
  refine .bind_isOpen ?_
  rw [if_pos hopen]
  refine .bind_reads (reads_typeOf start.id start.span) fun type => ?_
  refine (adds_literal hopen hcurrent hstart).bind ?_
  rintro _ s₁ ⟨rfl, hadds₁⟩
  refine .bind_need_some ?_
  set s₂ : LowerState := { s₁ with function :=
    { s₁.function with slots := s₁.function.slots ++ [⟨some name, type⟩] } } with hs₂
  have hslot : Ensures c s₁ (freshSlot (some name) type) fun slot s' => s' = s₂ := by
    rintro _ _ ⟨⟩
    rfl
  refine hslot.bind ?_
  rintro slot _ rfl
  refine (adds_emit (s := s₂) hadds₁.isOpen hadds₁.lt _ _).bind ?_
  rintro _ s₃ ⟨hadds₃, -⟩
  have hframes₃ : s₃.frames ≠ [] := by rwa [hadds₃.frames, show s₂.frames = s₁.frames from rfl, hadds₁.frames]
  rw [if_neg Bool.false_ne_true]
  refine Ensures.bind_modify (.pure ⟨slot, (s.function.block s.current).instrs, s.function.varTypes.length, ?_, ?_⟩)
  · cases hs₃ : s₃.frames with
    | nil => exact absurd hs₃ hframes₃
    | cons frame rest => simp [Frames.bind, Frames.modifyInner, Frames.slot?]
  · change (s₃.function.block s₃.current).instrs = _
    rw [hadds₃.current, hadds₃.instrs, show s₂.current = s.current from hadds₁.current]
    change (s₁.function.block s.current).instrs ++ _ = _
    rw [hadds₁.instrs, List.append_assoc]
    rfl

theorem ensures_counter {init test step : Expr} {body : List Expr} :
  Ensures c s (inductionFor init test step body) fun counter s' => s' = s ∧ ∀ i, counter = some i →
    ∃ name start, init.counter? = some (name, start) ∧ s.frames.slot? name = some i.slot
      ∧ (s.function.slotType i.slot).isInt = true ∧ inductionOf? i.slot name start test step body = some i
  := by
  unfold inductionFor
  split
  · exact .pure ⟨rfl, by simp⟩
  · next name start hinit =>
    refine .bind_slot? ?_
    split
    · exact .pure ⟨rfl, by simp⟩
    · next slot hslot =>
      refine .bind_get ?_
      split
      · next hint =>
        refine .pure ⟨rfl, fun i hi => ?_⟩
        obtain rfl := (inductionOf?_eq_some hi).1
        exact ⟨name, start, hinit, hslot, hint, hi⟩
      · exact .pure ⟨rfl, by simp⟩

end

end Lower

/-! ## The code of a loop that counts -/

theorem Lower.mem_loopMembers {count length : Nat} (h : count + 5 ≤ length) (id : Nat) :
  id ∈ Lower.loopMembers (Lower.loopBlocks true count) length ↔ count < id ∧ id ≠ count + 4 ∧ id < length
  := by
  simp only [Lower.loopMembers, Lower.loopBlocks, List.mem_append, List.mem_eraseDups, List.mem_cons,
    List.not_mem_nil, or_false, List.mem_range'_1, if_true]
  omega

namespace Spot

open Lower (LoopBlocks loopBlocks loopMembers)

variable {V : Expr → Prop} {p q r s : Spot} {blocks : LoopBlocks} {i : Induction}

/-- What is known at the end of the latch of a loop that counts. -/
structure Counting (V : Expr → Prop) (i : Induction) (p : Spot) (blocks : LoopBlocks) (r : Spot) : Prop where
  source : ∃ e name, V e ∧ e.IsCounted name i ∧ r.function.IsNamed i.slot name
  start : ∃ earlier v, (p.function.block p.state.current).instrs
    = earlier ++ [.set v (.const (.int i.init)), .store i.slot v]
  test : ∃ a b t, a ≠ b ∧ r.Done blocks.header
    [.load a i.slot, .set b (.const (.int i.bound)), .set t (.binary i.cmp a b)]
    (.branch t blocks.body blocks.exit)
  step : ∃ a b v op n, a ≠ b ∧ (op = .add ∧ i.step = n ∨ op = .sub ∧ i.step = -n)
    ∧ (r.function.block blocks.latch).instrs
      = [.load a i.slot, .set b (.const (.int n)), .set v (.binary op a b), .store i.slot v]
  stores : ∀ id, blocks.header < id → id ≠ blocks.latch →
    ∀ instr ∈ (r.function.block id).instrs, ¬instr.Overwrites i.slot
  slot : ∃ x, r.function.slots[i.slot]? = some x ∧ x.type.isInt = true

/-- Control gets into a loop by one way only. -/
theorem Looping.edge (h : Looping V p blocks r) (hp : p.Ready)
    (hpreheader : blocks.preheader = p.function.blocks.length) {a b : BlockId} (hb : p.function.blocks.length < b)
    (ha : p.function.blocks.length < a → a < r.function.blocks.length → a = blocks.exit)
    (hedge : b ∈ r.function.successors a) :
  a = blocks.preheader ∧ b = blocks.header
  := by
  rcases Nat.lt_trichotomy a p.function.blocks.length with hlt | rfl | hlt
  · -- one of the blocks that were there before the loop
    exfalso
    by_cases hne : a = p.state.current
    · rw [Function.successors, hne, h.before.terminator] at hedge
      obtain rfl : b = blocks.preheader := by simpa [Terminator.successors] using hedge
      exact hb.ne' hpreheader
    · have hrests : p.Rests p.function.blocks.length a :=
        ⟨hlt, fun _ => hne, fun _ hle => absurd hlt (Nat.not_lt_of_le hle)⟩
      rw [Function.successors, (Steps.rests h.within.steps le_rfl hrests).2.2] at hedge
      exact absurd (hp.sound.targets a b hedge).1 (Nat.not_lt_of_lt hb)
  · rw [Function.successors, ← hpreheader, h.preheader.terminator] at hedge
    exact ⟨hpreheader.symm, by simpa [Terminator.successors] using hedge⟩
  · exfalso
    rcases Nat.lt_or_ge a r.function.blocks.length with hlt' | hge
    · rw [Function.successors, ha hlt hlt', h.exit.blank.2] at hedge
      simp [Terminator.successors] at hedge
    · rw [Function.successors_eq_nil hge] at hedge
      cases hedge

theorem Looping.counts (h : Looping V p blocks r) (hp : p.Ready) (hcounting : Counting V i p blocks r)
    (hblocks : blocks = loopBlocks true p.function.blocks.length) (hopen : r.state.isOpen = true)
    (hcurrent : r.state.current = blocks.latch) :
  (Lower.exiting p blocks (r.terminate (.jump blocks.header []))).Counts V ⟨blocks.preheader, blocks.header,
    r.state.current, blocks.exit, loopMembers blocks r.function.blocks.length, some i⟩ i
  := by
  have hjump : Moves V r (r.terminate (.jump blocks.header [])) :=
    (leads_terminate hopen (by simpa [Terminator.successors] using h.header)).toMoves
  have h' := h.moves hp.sound hjump fun _ => hopen
  have hlatch := done_terminate (t := .jump blocks.header []) (h.within.sound hp.sound).current (by simp)
  have hlength : (r.terminate (.jump blocks.header [])).function.blocks.length = r.function.blocks.length :=
    length_terminate _
  rw [hcurrent] at hlatch ⊢
  obtain ⟨a, b, t, hne, htest⟩ := hcounting.test
  have htest' := htest.steps hjump.steps
  obtain ⟨hpreheader, hheader, hbody, hlatchBlock, hexit⟩ : blocks.preheader = p.function.blocks.length
      ∧ blocks.header = p.function.blocks.length + 1 ∧ blocks.body = p.function.blocks.length + 2
      ∧ blocks.latch = p.function.blocks.length + 3 ∧ blocks.exit = p.function.blocks.length + 4 := by
    rw [hblocks]
    exact ⟨rfl, rfl, rfl, rfl, rfl⟩
  have hcount : p.function.blocks.length + 4 < r.function.blocks.length := by
    rw [← hexit]
    exact h.exit.lt
  have hmem : ∀ id : Nat, id ∈ loopMembers blocks r.function.blocks.length
      ↔ p.function.blocks.length < id ∧ id ≠ p.function.blocks.length + 4 ∧ id < r.function.blocks.length := by
    rw [hblocks]
    exact Lower.mem_loopMembers hcount
  have hinside : ∀ id ∈ blocks.preheader :: loopMembers blocks r.function.blocks.length,
      p.function.blocks.length ≤ id ∧ id ≠ blocks.exit ∧ id < r.function.blocks.length := by
    intro id hid
    rcases List.mem_cons.mp hid with rfl | hid
    · rw [hpreheader, hexit]
      exact ⟨le_rfl, Nat.ne_of_lt (Nat.lt_add_of_pos_right (by decide)), (Nat.le_add_right _ 4).trans_lt hcount⟩
    · obtain ⟨hlt, hne, hlt'⟩ := (hmem id).mp hid
      exact ⟨hlt.le, hexit ▸ hne, hlt'⟩
  have haway : ∀ id ∈ blocks.preheader :: loopMembers blocks r.function.blocks.length,
      id ∉ p.ways ∪ {blocks.exit} := by
    rintro id hid (hway | hway)
    · exact absurd (hp.sound.ways id hway).1 (Nat.not_lt_of_le (hinside id hid).1)
    · exact (hinside id hid).2.1 hway
  refine ⟨hcounting.source, ⟨p.state.current, ⟨?_, ?_, ?_, ?_, ?_, fun c d hc hd hedge => ?_, h'.only,
    ?_, ⟨h'.preheader.instrs, h'.preheader.terminator⟩, ?_, ?_, fun id hid hne => ?_, hcounting.slot⟩,
    fun id hid => ?_⟩, haway⟩
  · rw [hmem, hpreheader]
    exact fun h => lt_irrefl _ h.1
  · intro hentry
    have hle : p.function.blocks.length ≤ (r.terminate (.jump blocks.header [])).function.entry :=
      (hinside _ hentry).1
    rw [h'.within.grows.entry] at hle
    exact absurd hp.sound.entry (Nat.not_lt_of_le hle)
  · exact (hmem blocks.header).mpr (by rw [hheader]; omega)
  · exact (hmem blocks.latch).mpr (by rw [hlatchBlock]; omega)
  · rw [hmem, hexit]
    exact fun h => h.2.1 rfl
  · refine h'.edge hp hpreheader ((hmem d).mp hd).1 (fun hlt hlt' => ?_) hedge
    by_contra hne
    exact hc ((hmem c).mpr ⟨hlt, hexit ▸ hne, hlength ▸ hlt'⟩)
  · obtain ⟨earlier, v, hstart⟩ := hcounting.start
    exact ⟨earlier, v, h'.before.instrs.trans hstart⟩
  · exact ⟨a, b, t, blocks.body, hne, (hmem blocks.body).mpr (by rw [hbody]; omega), htest'.instrs,
      htest'.terminator⟩
  · obtain ⟨a, b, v, op, m, hne, hop, hstep⟩ := hcounting.step
    exact ⟨a, b, v, op, m, hne, hop, hlatch.instrs.trans hstep, hlatch.terminator⟩
  · intro instr hinstr
    have hinstr' : instr ∈ ((r.terminate (.jump blocks.header [])).function.block id).instrs := hinstr
    rcases Nat.eq_or_lt_of_le (Nat.succ_le_of_lt ((hmem id).mp hid).1) with heq | hlt
    · rw [← heq, ← Nat.add_one, ← hheader, htest'.instrs] at hinstr'
      rintro ⟨hwrites, -⟩
      simp only [List.mem_cons, List.not_mem_nil, or_false] at hinstr'
      rcases hinstr' with rfl | rfl | rfl <;> cases hwrites
    · rw [instrs_terminate] at hinstr'
      exact hcounting.stores id (hheader ▸ hlt) hne instr hinstr'
  · rcases List.mem_cons.mp hid with rfl | hid
    · obtain ⟨hlt, hidle, hused⟩ := h'.before.rests
      refine ⟨hlt, hidle, fun _ _ hblank => ?_⟩
      have hterminator := h'.before.terminator.symm.trans hblank.2
      cases hterminator
    · exact ⟨hlength ▸ (hinside id hid).2.2, fun hopen => Bool.noConfusion hopen,
        fun hway => absurd hway (haway id hid)⟩

end Spot

namespace Lower

open Spot

-- the equations of `form` are many, and the lemma below needs them
attribute [local simp] form

section

variable {c : LowerContext} {V : Expr → Prop} {inner : Prop} {p : Spot} {place : Place} {id : Nat} {span : Span}
variable {body : List Expr} {counter : Option Induction}

/-- The steps of a body in which nothing assigns to a variable do not. -/
theorem not_assign_of_any (h : body.any (·.assigns name) = false) (e value : Expr)
    (he : ∃ part ∈ body, e ∈ part.preorder) :
  e.shape ≠ .assign name value
  := by
  obtain ⟨part, hpart, he⟩ := he
  intro hshape
  have hany : body.any (·.assigns name) = true := by
    refine List.any_eq_true.mpr ⟨part, hpart, List.any_eq_true.mpr ⟨e, he, ?_⟩⟩
    simp [hshape]
  simp [h] at hany

/-- What is known of a loop whose counter is recognized, after its initial form. -/
structure Counter (init test step : Expr) (body : List Expr) (s : LowerState) (i : Induction) (name : String) :
    Prop where
  slot : s.frames.slot? name = some i.slot
  isInt : (s.function.slotType i.slot).isInt = true
  init : ∃ type start, init.shape = .declare true name type start ∧ start.intLiteral? = some i.init
  start : ∃ earlier v, (s.function.block s.current).instrs
    = earlier ++ [.set v (.const (.int i.init)), .store i.slot v]
  test : test.IsOperation i.cmp name i.bound ∧ i.cmp ∈ [.lt, .le, .gt, .ge, .ne]
  step : step.IsStep name i.step
  body : body.any (·.assigns name) = false

theorem ensures_initial {init : Expr} (test step : Expr) (body : List Expr) {s : LowerState}
    (hopen : s.isOpen = true) (hcurrent : s.current < s.function.blocks.length) (hframes : s.frames ≠ []) :
  Ensures c s (expr .operand init) fun _ s' => Ensures c s' (inductionFor init test step body)
    fun counter s'' => s'' = s' ∧ ∀ i, counter = some i → ∃ name, Counter init test step body s' i name
  := by
  intro value s' hrun
  refine ensures_counter.mono fun counter s'' ⟨hsame, hcounter⟩ => ⟨hsame, fun i hi => ?_⟩
  obtain ⟨name, start, hinit, hslot, hint, hinduction⟩ := hcounter i hi
  obtain ⟨-, hstart, htest, hstep, hbody⟩ := inductionOf?_eq_some hinduction
  obtain ⟨slot, earlier, v, hslot', hinstrs⟩ := ensures_start hopen hcurrent hframes hinit hstart value s' hrun
  obtain rfl : slot = i.slot := Option.some.inj (hslot'.symm.trans hslot)
  obtain ⟨type, hshape⟩ := Expr.shape_of_counter? hinit
  exact ⟨name, hslot, hint, ⟨type, start, hshape, hstart⟩, ⟨earlier, v, hinstrs⟩, htest, hstep, hbody⟩

/-- Nothing in the body of a loop writes its counter as a whole. -/
theorem Counter.not_overwrites {init : Expr} {i : Induction} (h : Counter init test step body p.state i name)
    (hp : p.Ready) (hgrows : p.Grows r) (hbody : Steps (fun e => ∃ part ∈ body, e ∈ part.preorder) r.function r s)
    {id : BlockId} (hblank : (r.function.block id).instrs = []) :
  ∀ instr ∈ (s.function.block id).instrs, ¬instr.Overwrites i.slot
  := by
  intro instr hinstr hwrites
  obtain ⟨x, hx, -⟩ := (hp.slot h.slot).2
  have hlt := (List.getElem?_eq_some_iff.mp (getElem?_mono hgrows.slots hx)).1
  have hold := Steps.overwrites_mem hbody hlt ((hp.slot h.slot).2.mono hgrows.slots)
    (not_assign_of_any h.body) hwrites hinstr
  rw [hblank] at hold
  cases hold

/-- The test of a loop that counts is all that there is of the loop so far: it is in the header. -/
def HasTest (r : Spot) (blocks : LoopBlocks) (i : Induction) : Prop :=
  (∃ a b t, a ≠ b ∧ r.Done blocks.header
    [.load a i.slot, .set b (.const (.int i.bound)), .set t (.binary i.cmp a b)]
    (.branch t blocks.body blocks.exit))
  ∧ ∀ id, blocks.header < id → (r.function.block id).instrs = []

/-- The rounds of a loop after its test. -/
theorem walks_roundsAfterTest {init : Expr} {blocks : LoopBlocks}
    (he : V (.node id span (.forLoop init test step body))) (hV : ∀ e, (∃ part ∈ body, e ∈ part.preorder) → V e)
    (hbody : Walked (fun e => ∃ part ∈ body, e ∈ part.preorder) False (statements body))
    (hstep : Walked V True (expr .operand step)) (hp : p.Ready)
    (hcounter : ∀ i, counter = some i → ∃ name, Counter init test step body p.state i name)
    (hblocks : blocks = loopBlocks true p.function.blocks.length) (h : Looping V p blocks r)
    (hopen : r.state.isOpen = true) (hframes : r.state.frames = p.state.frames)
    (hlatch : r.Pending blocks.latch (insert blocks.preheader p.here))
    (htest : ∀ i, counter = some i → HasTest r blocks i) :
  Walks c r (do
      discard (inLoop blocks.latch blocks.exit (inScope (statements body)))
      enterLatch blocks
      discard (expr .operand step)
      leaveLoop blocks counter
      return none)
    fun (value : Option VarId) q => Moves V p q ∧ value = none
  := by
  refine (walks_inLoop (h.within.ready hp hframes hopen) hlatch.way h.exit.way hbody.inScope).bind
    fun _ p₁ ⟨hp₁, hframes₁⟩ => ?_
  have h₁ := h.moves hp.sound (hp₁.mono hV).toMoves fun _ => hopen
  have hlatch₁ := hlatch.moves hp₁.toMoves
  refine (walks_enterLatch hp h₁ hblocks hlatch₁).bind
    fun _ p₂ ⟨h₂, hopen₂, hframes₂, hcurrent₂, hsteps₂, hinstrs₂⟩ => ?_
  have hkept₂ : p₂.state.frames = p.state.frames := by rw [hframes₂, hframes₁, hframes]
  have hadds : Ensures c p₂.state (expr .operand step) fun _ s => ∀ i, counter = some i →
      ∃ a b v op n, a ≠ b ∧ (op = .add ∧ i.step = n ∨ op = .sub ∧ i.step = -n)
        ∧ p₂.state.Adds s [.load a i.slot, .set b (.const (.int n)), .set v (.binary op a b), .store i.slot v] := by
    intro value s hrun i hi
    obtain ⟨name, hname⟩ := hcounter i hi
    exact adds_step hopen₂ (h₂.within.sound hp.sound).current (hkept₂ ▸ hname.slot) hname.step value s hrun
  have hready₂ := h₂.within.ready hp hkept₂ hopen₂
  refine (((hstep c p₂ hready₂).and hadds).mono fun _ p₃ ⟨hp₃, hadds₃⟩ =>
    And.intro hp₃.leads (And.intro (hp₃.owed trivial) hadds₃)).discard.bind fun _ p₃ ⟨hp₃, howed₃, hadds₃⟩ => ?_
  have h₃ := h₂.moves hp.sound hp₃.toMoves fun _ => hopen₂
  refine (walks_leaveLoop hp h₃ hblocks fun i hi => ?_).bind fun _ q ⟨hq, hways, hframes_q⟩ => .pure ⟨?_, rfl⟩
  · obtain ⟨name, hname⟩ := hcounter i hi
    obtain ⟨⟨a, b, t, hne, hheader⟩, hblank⟩ := htest i hi
    obtain ⟨a', b', v, op, n, hne', hop, hadds'⟩ := hadds₃ i hi
    obtain ⟨type, start, hinit, hstart⟩ := hname.init
    have hnamed := (hp.slot hname.slot).2.mono h₃.within.grows.slots
    have hinstrs := hadds'.instrs
    rw [hcurrent₂, hinstrs₂, hlatch₁.blank.1, List.nil_append] at hinstrs
    have hcounted : Expr.IsCounted (.node id span (.forLoop init test step body)) name i :=
      ⟨type, start, init, test, step, body, rfl, hinit, hstart, hname.test.1, hname.step, hname.test.2⟩
    refine ⟨hadds'.isOpen, h₃.counts hp ⟨⟨_, name, he, hcounted, hnamed⟩, hname.start, ⟨a, b, t, hne, ?_⟩,
      ⟨a', b', v, op, n, hne', hop, hinstrs⟩, fun id hid hlatch => ?_, ?_⟩ hblocks hadds'.isOpen
      (hadds'.current.trans hcurrent₂)⟩
    · exact ((hheader.steps hp₁.steps).steps hsteps₂).steps hp₃.steps
    · rw [hadds'.others id (hcurrent₂ ▸ hlatch), hinstrs₂]
      exact hname.not_overwrites hp h.within.grows hp₁.steps (hblank id hid)
    · obtain ⟨x, hx, -⟩ := (hp.slot hname.slot).2
      refine ⟨x, getElem?_mono h₃.within.grows.slots hx, ?_⟩
      have hint := hname.isInt
      rwa [slotType_of_getElem? hx] at hint
  · have howed : q.state.frames.owed = p.state.frames.owed := by rw [hframes_q, howed₃, hkept₂]
    refine ⟨hq.steps, hways, hq.loop, ?_, hq.here, fun hopen => ?_⟩
    · rw [hframes_q, hp₃.tail, hkept₂]
    · rw [howed]
      exact hp.owed.mono hq.grows (hq.here hopen)

/-- The rounds of a loop after its initial form. -/
theorem walks_rounds {init : Expr} (he : V (.node id span (.forLoop init test step body)))
    (hV : ∀ e, (∃ part ∈ body, e ∈ part.preorder) → V e) (htest : Walked V True (expr .operand test))
    (hbody : Walked (fun e => ∃ part ∈ body, e ∈ part.preorder) False (statements body))
    (hstep : Walked V True (expr .operand step)) (hp : p.Ready)
    (hcounter : ∀ i, counter = some i → ∃ name, Counter init test step body p.state i name) :
  Walks c p (do
      let blocks ← enterLoop true
      let some test ← need test (← expr .operand test) | return none
      enterBody blocks test
      discard (inLoop blocks.latch blocks.exit (inScope (statements body)))
      enterLatch blocks
      discard (expr .operand step)
      leaveLoop blocks counter
      return none)
    fun (value : Option VarId) q => Moves V p q ∧ value = none
  := by
  refine (walks_enterLoop (V := V) hp true).bind fun blocks p₁ hentered => ?_
  obtain ⟨hblocks, h₁, hopen₁, hframes₁, hcurrent₁, hlatch₁, hbody₁, hblank₁⟩ := hentered
  have hadds : Ensures c p₁.state (expr .operand test) fun value s => ∀ i, counter = some i →
      ∃ a b v, a ≠ b ∧ value = some v ∧ p₁.state.Adds s [.load a i.slot,
        .set b (.const (.int i.bound)), .set v (.binary i.cmp a b)] := by
    intro value s hrun i hi
    obtain ⟨name, hname⟩ := hcounter i hi
    exact adds_operation hopen₁ (h₁.within.sound hp.sound).current (hframes₁ ▸ hname.slot) hname.test.1 value s hrun
  refine ((htest c p₁ (h₁.within.ready hp hframes₁ hopen₁)).and hadds).bind fun value p₂ ⟨hp₂, hadds₂⟩ => ?_
  refine .bind_need (fun v hv => ?_) fun hclosed => ?_
  · have hopen₂ := hp₂.isOpen (by simp [hv])
    have hframes₂ := hp₂.frames trivial (by simp [hv])
    have h₂ := h₁.moves hp.sound hp₂.leads.toMoves fun _ => hopen₁
    have hpre : blocks.preheader < blocks.header := by
      rw [hblocks]
      exact Nat.lt_succ_self _
    refine (walks_enterBody hp h₂ hopen₂ hblocks (hlatch₁.moves hp₂.leads.toMoves)
      ((hbody₁ rfl).moves hp₂.leads.toMoves) v).bind
      fun _ p₃ ⟨h₃, hopen₃, hframes₃, hlatch₃, hdone₃, hinstrs₃⟩ => ?_
    refine walks_roundsAfterTest he hV hbody hstep hp hcounter hblocks h₃ hopen₃
      (hframes₃.trans (hframes₂.trans hframes₁)) hlatch₃ fun i hi => ?_
    obtain ⟨a, b, t, hne, hvalue, hadds'⟩ := hadds₂ i hi
    obtain rfl : v = t := Option.some.inj (hv.symm.trans hvalue)
    have hheader := hadds'.instrs
    rw [hcurrent₁, (hblank₁ _ hpre).1, List.nil_append] at hheader
    rw [hadds'.current, hcurrent₁, hheader] at hdone₃
    refine ⟨⟨a, b, v, hne, hdone₃⟩, fun id hid => ?_⟩
    rw [hinstrs₃, hadds'.others id (hcurrent₁ ▸ hid.ne'), (hblank₁ id (hpre.trans hid)).1]
  · -- control does not come out of the test
    have h₂ := h₁.within.moves hopen₁ hp₂.leads.toMoves
    refine Walks.pure (p := { p₂ with ways := p.ways }) ⟨(h₂.lost hclosed ?_).toMoves, rfl⟩
    rw [hp₂.leads.tail, hframes₁]

theorem walked_forLoop {init : Expr} (he : V (.node id span (.forLoop init test step body)))
    (hV : ∀ e, (∃ part ∈ body, e ∈ part.preorder) → V e) (hinit : Walked V True (expr .operand init))
    (htest : Walked V True (expr .operand test))
    (hbody : Walked (fun e => ∃ part ∈ body, e ∈ part.preorder) False (statements body))
    (hstep : Walked V True (expr .operand step)) :
  Walked V inner (form place id span (.forLoop init test step body))
  := by
  intro c p₀ hp₀
  simp only [form]
  refine (walks_inScope V hp₀ (R := fun value => value.isSome = true) fun q hq _ hframes_q => ?_).mono ?_
  · have hcons : q.state.frames ≠ [] := by simp [hframes_q]
    have hfirst := (((hinit c q hq).and (ensures_initial test step body hq.isOpen hq.sound.current hcons)).mono
      fun _ p h => And.intro h.1.leads h.2).discard
    refine hfirst.bind ?_
    rintro _ p ⟨hqp, hinitial⟩
    refine .bind_isOpen ?_
    cases hopen : p.state.isOpen with
    | false => exact .pure ⟨hqp.toMoves, by simp⟩
    | true =>
      have hp := hqp.ready hq hopen
      refine Ensures.bind hinitial ?_
      rintro counter _ ⟨rfl, hcounter⟩
      refine (walks_rounds he hV htest hbody hstep hp hcounter).mono ?_
      rintro value r ⟨hr, hvalue⟩
      exact ⟨.trans hqp.toMoves hopen hr, by simp [hvalue]⟩
  · rintro value q ⟨hq, hframes, hopen⟩
    exact ⟨hq, hopen, fun _ => congrArg _ hframes, fun _ _ => hframes⟩

end

end Lower

end FormCompiler
