import FormCompiler.Proofs.Lowering.Walk

/-!
# Walking through forms

What lowering a form leads to, if its parts lead somewhere: one lemma for each form that has no blocks of
its own, in the order of `Lower.form`.
-/

namespace FormCompiler

open FormCompiler.Flow

namespace Spot

variable {α : Type} {V : Expr → Prop} {inner : Prop} {p q r : Spot} {value : Option α}

/--
What lowering leads to. Inside another form what is owed at the end of the scope stays as it is, and if
there is a value, then nothing has been declared.
-/
structure Yields (V : Expr → Prop) (inner : Prop) (p : Spot) (value : Option α) (q : Spot) : Prop where
  leads : Leads V p q
  isOpen : value.isSome = true → q.state.isOpen = true
  owed : inner → q.state.frames.owed = p.state.frames.owed
  frames : inner → value.isSome = true → q.state.frames = p.state.frames

theorem Yields.none (h : Leads V p q) (howed : inner → q.state.frames.owed = p.state.frames.owed) :
  Yields V inner p (none : Option α) q
  := ⟨h, by simp, howed, by simp⟩

theorem Yields.straight (h : Leads V p q) (hopen : q.state.isOpen = true)
    (hframes : q.state.frames = p.state.frames) (hr : Straight V q r) :
  Yields V inner p value r
  := by
  have hkept := hr.frames.trans hframes
  exact ⟨.trans h.toMoves hopen hr.toLeads, fun _ => hr.isOpen, fun _ => congrArg _ hkept, fun _ _ => hkept⟩

/-- What follows on something that control has come out of. -/
theorem Yields.after (h : Yields V inner q value r) (hq : Leads V p q) (hopen : q.state.isOpen = true)
    (hframes : q.state.frames = p.state.frames) :
  Yields V inner p value r
  := ⟨.trans hq.toMoves hopen h.leads, h.isOpen, fun hinner => (h.owed hinner).trans (congrArg _ hframes),
    fun hinner hvalue => (h.frames hinner hvalue).trans hframes⟩

end Spot

namespace Lower

open Spot

-- the equations of `form` are many, and all lemmas below need them
attribute [local simp] form

section

variable {α β : Type} {c : LowerContext} {V : Expr → Prop} {inner : Prop} {p : Spot} {place : Place}
  {id : Nat} {span : Span}
variable {action : Lower (Option VarId)} {e value target init index : Expr} {k : Option VarId → Lower β}
    {post : β → Spot → Prop} {rest items body : List Expr} {name : String}

/-- Wherever control can be, an action lowers something. -/
def Walked (V : Expr → Prop) (inner : Prop) (action : Lower (Option α)) : Prop :=
  ∀ c p, p.Ready → Walks c p action fun value q => Yields V inner p value q

/-- An action lowers something in scopes of its own. -/
def WalkedInScope (V : Expr → Prop) (action : Lower (Option VarId)) : Prop :=
  ∀ c p, p.Ready → Walks c p action fun value q => Leads V p q ∧ q.state.frames = p.state.frames
    ∧ (value.isSome = true → q.state.isOpen = true)

theorem Walked.inScope (h : Walked V inner action) :
  WalkedInScope V (inScope action)
  := fun c _ hp => walks_inScope V hp fun q hq _ _ =>
    (h c q hq).mono fun _ _ hr => ⟨hr.leads.toMoves, hr.isOpen⟩

theorem WalkedInScope.walked (h : WalkedInScope V action) :
  Walked V inner action
  := fun c p hp => (h c p hp).mono fun _ _ ⟨hq, hframes, hopen⟩ =>
    ⟨hq, hopen, fun _ => congrArg _ hframes, fun _ _ => hframes⟩

/-! ## Operands -/

theorem Walks.bind_need {value : Option VarId} (hsome : ∀ v, value = some v → Walks c p (k (some v)) post)
    (hnone : p.state.isOpen = false → Walks c p (k none) post) :
  Walks c p (need e value >>= k) post
  := Ensures.bind_need hsome hnone

/-- An operand has a value, or control does not come out of it. -/
theorem Walked.operand (h : Walked V True (expr .operand e)) (hp : p.Ready)
    (hsome : ∀ v q, Leads V p q → q.Ready → q.state.frames = p.state.frames →
      Walks c q (k (some v)) post)
    (hnone : ∀ q, Leads V p q → q.state.isOpen = false → q.state.frames.owed = p.state.frames.owed →
      Walks c q (k none) post) :
  Walks c p (expr .operand e >>= fun value => need e value >>= k) post
  := by
  refine (h c p hp).bind fun value q hq => ?_
  refine .bind_need (fun v hv => ?_) fun hclosed => hnone q hq.leads hclosed (hq.owed trivial)
  have hvalue : value.isSome = true := by simp [hv]
  exact hsome v q hq.leads (hq.leads.ready hp (hq.isOpen hvalue)) (hq.frames trivial hvalue)

/-- Either an action has what is looked for, and control comes out of it, or it has not. -/
theorem Walked.cases {action : Lower (Option α)} (h : Walked V True action) (hp : p.Ready) {k : Option α → Lower β}
    (hsome : ∀ a q, Leads V p q → q.Ready → q.state.frames = p.state.frames →
      Walks c q (k (some a)) post)
    (hnone : ∀ q, Leads V p q → q.state.frames.owed = p.state.frames.owed → Walks c q (k none) post) :
  Walks c p (action >>= k) post
  := by
  refine (h c p hp).bind fun value q hq => ?_
  cases value with
  | none => exact hnone q hq.leads (hq.owed trivial)
  | some a => exact hsome a q hq.leads (hq.leads.ready hp (hq.isOpen rfl)) (hq.frames trivial rfl)

/-- A new variable after the operands of a form. -/
theorem walks_result {q : Spot} (h : Leads V p q) (hq : q.Ready)
    (hframes : q.state.frames = p.state.frames) {instr : VarId → Instr}
    (hread : ∀ v, (instr v).readSlot? = none) (hdef : ∀ v, (instr v).def? = some v) {action : Lower ValueType}
    (haction : Reads action) (span : Option Span) :
  Walks c q (do return some (← define (← action) span instr)) fun value r => Yields V inner p value r
  := .bind_reads haction fun type => (walks_value V hq hread hdef type span).bind fun _ _ hr =>
    .pure (.straight h hq.isOpen hframes hr)

theorem walked_operands_nil :
  Walked V True (operands [])
  := by
  intro c p hp
  simp only [operands]
  exact .pure (.straight (Straight.refl hp).toLeads hp.isOpen rfl (.refl hp))

theorem walked_operands_cons (he : Walked V True (expr .operand e)) (hrest : Walked V True (operands rest)) :
  Walked V True (operands (e :: rest))
  := by
  intro c p hp
  simp only [operands]
  refine he.operand hp (fun v q hq hready hframes => ?_) fun q hq _ howed => .pure (.none hq fun _ => howed)
  refine hrest.cases hready (fun vs r hr hready' hframes' => .pure ?_) fun r hr howed => .pure ?_
  · have hkept := hframes'.trans hframes
    exact ⟨.trans hq.toMoves hready.isOpen hr, fun _ => hready'.isOpen, fun _ => congrArg _ hkept, fun _ _ => hkept⟩
  · exact .after (.none hr fun _ => howed) hq hready.isOpen hframes

/-! ## Values -/

theorem walked_literal (value : Literal) :
  Walked V inner (form place id span (.literal value))
  := by
  intro c p hp
  simp only [form]
  exact walks_result (Straight.refl hp).toLeads hp rfl (fun _ => by rfl) (fun _ => by rfl) (reads_typeOf id span) _

theorem walked_name (n : String) :
  Walked V inner (form place id span (.name n))
  := by
  intro c p hp
  simp only [form]
  exact (walks_name V hp id span n).bind fun v q hq =>
    .pure (.straight (Straight.refl hp).toLeads hp.isOpen rfl hq)

theorem walked_call {callee : String} {args : List Expr} (hargs : Walked V True (operands args)) :
  Walked V inner (form place id span (.call callee args))
  := by
  intro c p hp
  simp only [form]
  refine .bind_read (.bind_required fun sig _ => ?_)
  refine hargs.cases hp (fun vs q hq hready hframes => ?_) fun q hq howed => .pure (.none hq fun _ => howed)
  exact (walks_callOn V hready id span sig vs).mono fun value r hr => .straight hq hready.isOpen hframes hr

theorem walked_binary {op : BinaryOp} {lhs rhs : Expr} (hlhs : Walked V True (expr .operand lhs))
    (hrhs : Walked V True (expr .operand rhs)) :
  Walked V inner (form place id span (.binary op lhs rhs))
  := by
  intro c p hp
  simp only [form]
  refine hlhs.operand hp (fun left q hq hready hframes => ?_) fun q hq _ howed => .pure (.none hq fun _ => howed)
  refine hrhs.operand hready (fun right r hr hready' hframes' => ?_) fun r hr _ howed =>
    .pure (.after (.none hr fun _ => howed) hq hready.isOpen hframes)
  exact walks_result (.trans hq.toMoves hready.isOpen hr) hready' (hframes'.trans hframes) (fun _ => by rfl)
    (fun _ => by rfl) (reads_typeOf id span) _

theorem walked_unary {op : UnaryOp} {operand : Expr} (hoperand : Walked V True (expr .operand operand)) :
  Walked V inner (form place id span (.unary op operand))
  := by
  intro c p hp
  simp only [form]
  refine hoperand.operand hp (fun v q hq hready hframes => ?_) fun q hq _ howed => .pure (.none hq fun _ => howed)
  exact walks_result hq hready hframes (fun _ => by rfl) (fun _ => by rfl) (reads_typeOf id span) _

theorem walked_array (hitems : Walked V True (operands items)) :
  Walked V inner (form place id span (.array items))
  := by
  intro c p hp
  simp only [form]
  refine hitems.cases hp (fun vs q hq hready hframes => ?_) fun q hq howed => .pure (.none hq fun _ => howed)
  exact walks_result hq hready hframes (fun _ => by rfl) (fun _ => by rfl) (reads_typeOf id span) _

theorem walked_tuple (hitems : Walked V True (operands items)) :
  Walked V inner (form place id span (.tuple items))
  := by
  intro c p hp
  simp only [form]
  refine hitems.cases hp (fun vs q hq hready hframes => ?_) fun q hq howed => .pure (.none hq fun _ => howed)
  exact walks_result hq hready hframes (fun _ => by rfl) (fun _ => by rfl) (reads_typeOf id span) _

theorem walked_length (htarget : Walked V True (expr .operand target)) :
  Walked V inner (form place id span (.length target))
  := by
  intro c p hp
  -- the number is the same whether the array has been computed or not
  have hvalue : ∀ (n : Nat) q, Leads V p q → q.Ready → q.state.frames = p.state.frames →
      Walks c q (do
        if twoPow 63 ≤ n then fail span .lengthRange
        return some (← define (← typeOf id span) (some span) (.set · (.const (.int n)))))
      fun value r => Yields V inner p value r := by
    intro n q hq hready hframes
    dsimp only
    split
    · exact .bind .fail fun _ _ => False.elim
    · exact walks_result hq hready hframes (fun _ => by rfl) (fun _ => by rfl) (reads_typeOf id span) _
  simp only [form]
  refine .bind_reads (reads_arrayLength target) fun n => ?_
  obtain ⟨tid, tspan, shape⟩ := target
  cases shape
  case name m => exact hvalue n p (Straight.refl hp).toLeads hp rfl
  all_goals
    exact htarget.operand hp (fun v q => hvalue n q) fun q hq _ howed => .pure (.none hq fun _ => howed)

/-! ## Bindings and assignments -/

theorem walked_declare {isMutable : Bool} {written : Option Ty} (hinit : Walked V True (expr .operand init)) :
  Walked V (place = .operand) (form place id span (.declare isMutable name written init))
  := by
  intro c p hp
  simp only [form]
  refine .bind_reads (reads_typeOf init.id init.span) fun type => ?_
  refine hinit.operand hp (fun v q hq hready hframes => ?_) fun q hq _ howed => .pure (.none hq fun _ => howed)
  refine (walks_bindValue V hready name type v span).bind fun slot r ⟨hr, hopen, howed, hslot⟩ => ?_
  have hpr : Leads V p r := .trans hq.toMoves hready.isOpen hr
  refine .bind_ite (m := fun t => Leads V p t
    ∧ (place = .operand → t.state.frames.owed = p.state.frames.owed)) (fun hkeeps => ?_)
    (fun _ => ⟨hpr, fun _ => howed.trans (congrArg _ hframes)⟩) fun t ⟨ht, howed⟩ => .pure (.none ht howed)
  refine (walks_releaseAtExit V (hr.ready hready hopen) hslot _ _).mono fun _ t ⟨ht, _⟩ =>
    ⟨.trans hpr.toMoves hopen ht, ?_⟩
  rintro rfl
  simp [Place.keeps] at hkeeps

theorem walks_assign (hp : p.Ready) (he : V e) (hshape : e.shape = .assign name value) {slot : SlotId}
    (hnamed : p.function.IsNamed slot name) (v : VarId) (span : Option Span) :
  Walks c p (emit (.store slot v) span) fun _ q => Straight V p q
  := by
  rintro _ _ ⟨⟩
  refine ⟨p.emit (.store slot v) span, rfl, .of_steps hp (.single (.emit span hp.isOpen ?_ ?_)) rfl rfl rfl rfl
    hp.isOpen⟩
  · rintro slot ⟨⟩
  · rintro slot ⟨⟨⟩, -⟩
    exact .inr ⟨e, name, value, he, hshape, hnamed⟩

theorem walked_assign (he : V (.node id span (.assign name value))) (hvalue : Walked V True (expr .operand value)) :
  Walked V inner (form place id span (.assign name value))
  := by
  intro c p hp
  simp only [form]
  refine .bind_slot? (.bind_required fun slot hslot => ?_)
  refine hvalue.operand hp (fun v q hq hready hframes => ?_) fun q hq _ howed => .pure (.none hq fun _ => howed)
  have hnamed := (hp.slot hslot).2.mono hq.grows.slots
  exact (walks_assign hready he rfl hnamed v _).bind fun _ r hr => .pure (.straight hq hready.isOpen hframes hr)

theorem walked_assignElement (hrows : Walked V True (rowIndices target))
    (hindex : Walked V True (expr .operand index)) (hvalue : Walked V True (expr .operand value)) :
  Walked V inner (form place id span (.assignElement target index value))
  := by
  intro c p hp
  simp only [form]
  split
  · refine .bind_slot? (.bind_required fun slot hslot => ?_)
    refine hrows.cases hp (fun vs q hq hready hframes => ?_) fun q hq howed => .pure (.none hq fun _ => howed)
    refine hindex.operand hready (fun v r hr hready' hframes' => ?_) fun r hr _ howed =>
      .pure (.after (.none hr fun _ => howed) hq hready.isOpen hframes)
    have hpr : Leads V p r := .trans hq.toMoves hready.isOpen hr
    refine .bind_reads (reads_arrayLength target) fun n => ?_
    refine (walks_boundsCheck V hready' id span v n).bind fun _ s hs => ?_
    have hps : Leads V p s := .trans hpr.toMoves hready'.isOpen hs.toLeads
    have hframes_s : s.state.frames = p.state.frames := by rw [hs.frames, hframes', hframes]
    refine hvalue.operand (hs.ready hready') (fun w t ht hready_t hframes_t => ?_) fun t ht _ howed =>
      .pure (.after (.none ht fun _ => howed) hps hs.isOpen hframes_s)
    have hpt : Leads V p t := .trans hps.toMoves hs.isOpen ht
    have hstored := (hp.slot hslot).1.mono (hpt.here hready_t.isOpen) hpt.grows.instrs
    exact (walks_assignElement V hready_t (some span) hstored _ _ _ _).bind fun _ u hu =>
      .pure (.straight hpt hready_t.isOpen (hframes_t.trans hframes_s) hu)
  · exact .fail

theorem walked_rowIndices_element (htarget : Walked V True (rowIndices target))
    (hindex : Walked V True (expr .operand index)) :
  Walked V True (rowIndices (.node id span (.element target index)))
  := by
  intro c p hp
  simp only [rowIndices]
  refine htarget.cases hp (fun vs q hq hready hframes => ?_) fun q hq howed => .pure (.none hq fun _ => howed)
  refine hindex.operand hready (fun v r hr hready' hframes' => ?_) fun r hr _ howed =>
    .pure (.after (.none hr fun _ => howed) hq hready.isOpen hframes)
  refine .bind_reads (reads_arrayLength target) fun n => ?_
  exact (walks_boundsCheck V hready' id span v n).bind fun _ s hs => .pure
    (.straight (.trans hq.toMoves hready.isOpen hr) hready'.isOpen (hframes'.trans hframes) hs)

theorem walked_rowIndices_root {shape : Shape Expr} (hshape : ∀ target index, shape ≠ .element target index) :
  Walked V True (rowIndices (.node id span shape))
  := by
  intro c p hp
  cases shape
  case element target index => exact absurd rfl (hshape target index)
  all_goals
    simp only [rowIndices]
    exact .pure (.straight (Straight.refl hp).toLeads hp.isOpen rfl (.refl hp))

/-! ## Elements -/

/-- An action finds or makes the slot of an array. -/
def WalkedSlot (V : Expr → Prop) (action : Lower (Option SlotId)) : Prop :=
  ∀ c p, p.Ready → Walks c p action fun slot q => Yields V True p slot q
    ∧ ∀ k, slot = some k → q.function.StoresIn q.here k

theorem walkedSlot {shape : Shape Expr} (hform : Walked V True (form .operand id span shape)) :
  WalkedSlot V (arraySlot (.node id span shape))
  := by
  intro c p hp
  unfold arraySlot
  dsimp only
  split
  on_goal 1 =>
    refine .bind_slot? ?_
    cases hslot : p.state.frames.slot? _
    case some slot =>
      refine .pure ⟨.straight (Straight.refl hp).toLeads hp.isOpen rfl (.refl hp), ?_⟩
      rintro _ ⟨⟩
      exact (hp.slot hslot).1
  on_goal 2 => rw [pure_bind]
  -- what is not a local is copied
  all_goals
    refine Walks.bind_isOpen ?_
    rw [if_pos hp.isOpen]
    refine (hform c p hp).bind fun value q hq => ?_
    refine .bind_need (fun v hv => ?_) fun _ => .pure ⟨.none hq.leads hq.owed, by simp⟩
    have hvalue : value.isSome = true := by simp [hv]
    have hopen := hq.isOpen hvalue
    refine (walks_spill V (hq.leads.ready hp hopen) v _).bind ?_
    rintro slot r ⟨hr, hslot⟩
    refine .pure ⟨.straight hq.leads hopen (hq.frames trivial hvalue) hr, ?_⟩
    rintro _ ⟨⟩
    exact hslot

theorem walked_element (htarget : Walked V True (expr .operand target)) (hslot : WalkedSlot V (arraySlot target))
    (hindex : Walked V True (expr .operand index)) :
  Walked V inner (form place id span (.element target index))
  := by
  intro c p hp
  simp only [form]
  refine .bind_reads (reads_typeOf target.id target.span) fun type => ?_
  split
  · refine htarget.operand hp (fun v q hq hready hframes => ?_) fun q hq _ howed => .pure (.none hq fun _ => howed)
    refine .bind_reads (reads_tuplePosition index) fun position => ?_
    exact walks_result hq hready hframes (fun _ => by rfl) (fun _ => by rfl) (reads_typeOf id span) _
  · refine (hslot c p hp).bind fun slot q ⟨hq, hstored⟩ => ?_
    cases slot with
    | none => exact .pure (.none hq.leads fun _ => hq.owed trivial)
    | some slot =>
      have hready := hq.leads.ready hp (hq.isOpen rfl)
      refine hindex.operand hready (fun v r hr hready' hframes' => ?_) fun r hr _ howed =>
        .pure (.after (.none hr fun _ => howed) hq.leads hready.isOpen (hq.frames trivial rfl))
      refine (walks_boundsCheck V hready' id span v _).bind fun _ s hs => ?_
      refine .bind_reads (reads_typeOf id span) fun type => ?_
      have hqs : Leads V q s := .trans hr.toMoves hready'.isOpen hs.toLeads
      refine Walks.bind (m := fun _ t => Straight V s t) ?_ fun w t ht => .pure ?_
      · refine walks_define V (hs.ready hready') ?_ (fun _ => rfl) type _
        rintro _ _ ⟨⟩
        exact (hstored slot rfl).mono (hqs.here hs.isOpen) hqs.grows.instrs
      · refine .straight (.trans hq.leads.toMoves hready.isOpen hqs) hs.isOpen ?_ ht
        rw [hs.frames, hframes', hq.frames trivial rfl]
  · exact .fail

/-! ## Scopes -/

theorem walked_statements_nil :
  Walked V inner (statements [])
  := by
  intro c p hp
  simp only [statements]
  exact .pure (.none (Straight.refl hp).toLeads fun _ => rfl)

theorem walked_statements_cons (he : Walked V False (expr (.statement rest rest.isEmpty) e))
    (hrest : Walked V False (statements rest)) :
  Walked V False (statements (e :: rest))
  := by
  intro c p hp
  simp only [statements]
  refine (he c p hp).bind fun value q hq => .bind_isOpen ?_
  cases hopen : q.state.isOpen with
  | false => exact .pure (.none hq.leads False.elim)
  | true =>
    rw [if_pos rfl]
    split
    · exact .pure hq
    · refine (hrest c q (hq.leads.ready hp hopen)).mono fun value' r hr => ?_
      exact ⟨.trans hq.leads.toMoves hopen hr.leads, hr.isOpen, False.elim, False.elim⟩

/-! ## Jumps -/

theorem walked_breakLoop :
  Walked V inner (form place id span .breakLoop)
  := by
  intro c p hp
  simp only [form, loopTargets, bind_assoc]
  refine .bind_get (.bind_required fun targets htargets => ?_)
  exact (walks_jumpInLoop V hp (hp.targets targets htargets).2).bind fun _ q ⟨hq, _, hframes⟩ =>
    .pure (.none hq fun _ => by rw [hframes])

theorem walked_continueLoop :
  Walked V inner (form place id span .continueLoop)
  := by
  intro c p hp
  simp only [form, loopTargets, bind_assoc]
  refine .bind_get (.bind_required fun targets htargets => ?_)
  exact (walks_jumpInLoop V hp (hp.targets targets htargets).1).bind fun _ q ⟨hq, _, hframes⟩ =>
    .pure (.none hq fun _ => by rw [hframes])

theorem walked_ret_none :
  Walked V inner (form place id span (.ret none))
  := by
  intro c p hp
  simp only [form]
  exact (walks_returnValue V hp span none).bind
    fun _ q ⟨hq, _, hframes⟩ => .pure (.none hq fun _ => by rw [hframes])

theorem walked_ret_some (hvalue : Walked V True (expr .operand value)) :
  Walked V inner (form place id span (.ret (some value)))
  := by
  intro c p hp
  simp only [form]
  refine (hvalue c p hp).bind fun value q hq => .bind_isOpen ?_
  refine .bind_ite (m := fun r => Leads V p r ∧ r.state.frames.owed = p.state.frames.owed) (fun hopen => ?_)
    (fun _ => ⟨hq.leads, hq.owed trivial⟩) fun r ⟨hr, howed⟩ => .pure (.none hr fun _ => howed)
  refine (walks_returnValue V (hq.leads.ready hp hopen) span value).mono fun _ r ⟨hr, _, hframes⟩ => ?_
  exact ⟨.trans hq.leads.toMoves hopen hr, by rw [hframes, hq.owed trivial]⟩

/-! ## Allocations, resources and the runtime -/

theorem walked_alloc {size : Expr} (hsize : Walked V True (expr .operand size)) :
  Walked V (place = .operand) (form place id span (.alloc size))
  := by
  intro c p hp
  simp only [form]
  refine hsize.operand hp (fun v q hq hready hframes => ?_) fun q hq _ howed => .pure (.none hq fun _ => howed)
  refine (walks_value V hready (fun _ => by rfl) (fun _ => by rfl) _ _).bind fun pointer r hr => ?_
  split
  · next hdrops =>
    have hpr : Leads V p r := .trans hq.toMoves hready.isOpen hr.toLeads
    refine (walks_spill V (hr.ready hready) pointer none).bind fun slot s ⟨hs, hslot⟩ => ?_
    refine (walks_releaseAtExit V (hs.ready (hr.ready hready)) hslot span none).bind fun _ t ⟨ht, hopen⟩ => .pure ?_
    refine .none (.trans hpr.toMoves hr.isOpen (.trans hs.toMoves hs.isOpen ht)) ?_
    rintro rfl
    simp [Place.drops] at hdrops
  · exact .pure (.straight hq hready.isOpen hframes hr)

theorem walked_free {pointer : Expr} (hpointer : Walked V True (expr .operand pointer)) :
  Walked V inner (form place id span (.free pointer))
  := by
  intro c p hp
  simp only [form]
  refine hpointer.operand hp (fun v q hq hready hframes => ?_) fun q hq _ howed => .pure (.none hq fun _ => howed)
  exact (walks_emit V hready (by simp [Instr.readSlot?]) (by simp [Instr.Overwrites, Instr.writtenSlot?])
    _).bind fun _ r hr =>
    .pure (.straight hq hready.isOpen hframes hr)

theorem walked_atomic (hbody : Walked V False (statements body)) :
  Walked V inner (form place id span (.atomic body))
  := by
  intro c p hp
  simp only [form]
  refine (walks_runtimeCall V hp .atomicBegin [] _).discard.bind fun _ q hq => ?_
  have hinner : Walked V False (do
      owe .endAtomic
      statements body) := by
    intro c q hq
    refine (walks_owe V hq (by simp [Releases])).bind ?_
    rintro _ r ⟨hr, hopen⟩
    refine (hbody c r (hr.ready hq hopen)).mono fun value s hs => ?_
    exact ⟨.trans hr.toMoves hopen hs.leads, hs.isOpen, False.elim, False.elim⟩
  refine (hinner.inScope c q (hq.ready hp)).mono ?_
  rintro value r ⟨hr, hframes, hopen⟩
  exact .after ⟨hr, hopen, fun _ => congrArg _ hframes, fun _ _ => hframes⟩ hq.toLeads hq.isOpen hq.frames

/-- An action acquires resources, unless control does not come out of it. -/
def WalkedResources (V : Expr → Prop) (action : Lower Bool) : Prop :=
  ∀ c p, p.Ready → Walks c p action fun ok q => Leads V p q ∧ (ok = true → q.state.isOpen = true)

theorem walkedResources_nil :
  WalkedResources V (resources [])
  := by
  intro c p hp
  simp only [resources]
  exact .pure ⟨(Straight.refl hp).toLeads, fun _ => hp.isOpen⟩

theorem walkedResources_cons {rest : List (Resource Expr)} (hinit : Walked V True (expr .operand init))
    (hrest : WalkedResources V (resources rest)) :
  WalkedResources V (resources (⟨name, init, span⟩ :: rest))
  := by
  intro c p hp
  simp only [resources]
  refine hinit.operand hp (fun v q hq hready _ => ?_) fun q hq _ _ => .pure ⟨hq, by simp⟩
  refine (walks_bindValue V hready name .ptr v span).bind fun slot r ⟨hr, hopen, _, hslot⟩ => ?_
  have hready_r := hr.ready hready hopen
  refine (walks_owe V hready_r fun slot' hslot' => ?_).bind fun _ s ⟨hs, hopen'⟩ => ?_
  · obtain rfl : slot' = slot := by simpa using hslot'
    exact hslot
  · refine (hrest c s (hs.ready hready_r hopen')).mono fun ok t ⟨ht, hok⟩ => ⟨?_, hok⟩
    exact .trans hq.toMoves hready.isOpen (.trans hr.toMoves hopen (.trans hs.toMoves hopen' ht))

theorem walked_withResources {items : List (Resource Expr)} (hitems : WalkedResources V (resources items))
    (hbody : Walked V False (statements body)) :
  Walked V inner (form place id span (.withResources items body))
  := by
  intro c p hp
  simp only [form]
  have haction : Walked V False (do if ← resources items then statements body else return none) := by
    intro c q hq
    refine (hitems c q hq).bind fun ok r ⟨hr, hok⟩ => ?_
    cases ok with
    | false => exact .pure (.none hr False.elim)
    | true =>
      refine (hbody c r (hr.ready hq (hok rfl))).mono fun value s hs => ?_
      exact ⟨.trans hr.toMoves (hok rfl) hs.leads, hs.isOpen, False.elim, False.elim⟩
  exact haction.inScope.walked c p hp

theorem walked_mutex_none {op : MutexOp} :
  Walked V inner (form place id span (.mutex op none))
  := by
  intro c p hp
  simp only [form]
  exact (walks_runtimeCall V hp _ _ _).mono fun value q hq =>
    .straight (Straight.refl hp).toLeads hp.isOpen rfl hq

theorem walked_mutex_some {op : MutexOp} {handle : Expr} (hhandle : Walked V True (expr .operand handle)) :
  Walked V inner (form place id span (.mutex op (some handle)))
  := by
  intro c p hp
  simp only [form]
  refine hhandle.operand hp (fun v q hq hready hframes => ?_) fun q hq _ howed => .pure (.none hq fun _ => howed)
  exact (walks_runtimeCall V hready _ _ _).mono fun value r hr => .straight hq hready.isOpen hframes hr

end

end Lower

end FormCompiler
