import FormCompiler.Lowering.Module
import FormCompiler.Proofs.Action.Ensures
import FormCompiler.Proofs.Flow.Built
import FormCompiler.Proofs.Typing.Typed

/-!
# What lowering keeps true

`Ensures` says what holds if an action of lowering succeeds. Between two actions the state is `Sound`:
the function so far is one under construction, and what is owed at the end of scopes can be done. As
long as control can be here the state is `Live`: the names in scope have slots of the
right types, and the targets of jumps out of the current loop can be reached from here.

What an action does to the state is `Reached`: it only adds to the function, leaves all blocks alone
but the current one, and if control comes out of it, it has passed where it was before.
-/

namespace FormCompiler

open FormCompiler.Flow

/-! ## Actions that succeed -/

namespace Lower

section

variable {α β : Type} {c : LowerContext} {s : LowerState}
variable {x : Lower α} {k : α → Lower β} {post : β → LowerState → Prop} {change : LowerState → LowerState}
    {span : Span} {fault : LowerFault}

/-- If an action succeeds, its result and the state after it satisfy a condition. -/
def Ensures (c : LowerContext) (s : LowerState) (action : Lower α) (post : α → LowerState → Prop) :
    Prop :=
  FormCompiler.Ensures s (action c) post

theorem Ensures.bind {m : α → LowerState → Prop} (hx : Ensures c s x m)
    (hk : ∀ a s', m a s' → Ensures c s' (k a) post) :
  Ensures c s (x >>= k) post
  := FormCompiler.Ensures.bind hx hk

theorem Ensures.mono {post post' : α → LowerState → Prop} (h : Ensures c s x post)
    (hpost : ∀ a s', post a s' → post' a s') :
  Ensures c s x post'
  := FormCompiler.Ensures.mono h hpost

theorem Ensures.and {post post' : α → LowerState → Prop} (h : Ensures c s x post) (h' : Ensures c s x post') :
  Ensures c s x fun a s' => post a s' ∧ post' a s'
  := FormCompiler.Ensures.and h h'

theorem Ensures.pure {a : α} {post : α → LowerState → Prop} (h : post a s) :
  Ensures c s (pure a) post
  := FormCompiler.Ensures.pure h

theorem Ensures.map {k : α → β} (h : Ensures c s x fun a => post (k a)) :
  Ensures c s (k <$> x) post
  := FormCompiler.Ensures.map h

theorem Ensures.discard {post : LowerState → Prop} (h : Ensures c s x fun _ s' => post s') :
  Ensures c s (discard x) fun _ s' => post s'
  := Ensures.map h

theorem Ensures.bind_get {k : LowerState → Lower β} (h : Ensures c s (k s) post) :
  Ensures c s (get >>= k) post
  := h

theorem Ensures.bind_read {k : LowerContext → Lower β} (h : Ensures c s (k c) post) :
  Ensures c s (read >>= k) post
  := h

theorem Ensures.modify {post : Unit → LowerState → Prop} (h : post () (change s)) :
  Ensures c s (modify change) post
  := by
  rintro _ _ ⟨⟩
  exact h

theorem Ensures.bind_modify {k : Unit → Lower β} (h : Ensures c (change s) (k ()) post) :
  Ensures c s (MonadStateOf.modifyGet (fun s => ((), change s)) >>= k) post
  := h

theorem Ensures.fail {post : α → LowerState → Prop} :
  Ensures c s (fail span fault) post
  := by
  rintro _ _ ⟨⟩

theorem Ensures.bind_required {value : Option α} (h : ∀ a, value = some a → Ensures c s (k a) post) :
  Ensures c s (Lower.required span fault value >>= k) post
  := by
  cases value with
  | none => exact .bind .fail fun _ _ => False.elim
  | some a => exact h a rfl

theorem Ensures.bind_isOpen {k : Bool → Lower β} (h : Ensures c s (k s.isOpen) post) :
  Ensures c s (Lower.isOpen >>= k) post
  := h

/-- What follows a condition without which the action fails. -/
theorem Ensures.unless_fail {p : Bool} {x : Lower β} (h : p = true → Ensures c s x post) :
  Ensures c s (if p = true then x else Lower.fail span fault >>= k) post
  := by
  cases p with
  | true => exact h rfl
  | false => exact .bind .fail fun _ _ => False.elim

/-- An action on a condition, and what follows in either case. -/
theorem Ensures.bind_ite {p : Bool} {x : Lower Unit} {k : Unit → Lower β} {m : LowerState → Prop}
    (hthen : p = true → Ensures c s x fun _ => m) (helse : p = false → m s)
    (hk : ∀ s', m s' → Ensures c s' (k ()) post) :
  Ensures c s (if p = true then x >>= k else k ()) post
  := by
  cases p with
  | true => exact (hthen rfl).bind fun _ => hk
  | false => exact hk s (helse rfl)

theorem Ensures.bind_slot? {name : String} {k : Option SlotId → Lower β}
    (h : Ensures c s (k (s.frames.slot? name)) post) :
  Ensures c s (Lower.slot? name >>= k) post
  := h

end

end Lower

/-! ## Types -/

section

variable {type : Ty}

attribute [local simp] Substitution.apply ValueType.ofTy?

/-- The type of the values of a type, in the instance that is made. -/
def LowerContext.valueType? (c : LowerContext) (type : Ty) : Option ValueType :=
  ValueType.ofTy? (c.bindings.apply type)

/-- All type variables that are bound stand for integers. -/
def Substitution.BindsIntegers (σ : Substitution) : Prop :=
  ∀ name type, ValueType.ofTy? (σ.apply (.var name)) = some type → type.isInt = true

theorem Substitution.bindsIntegers_empty :
  Substitution.empty.BindsIntegers
  := by
  intro name type h
  simp [get?, empty] at h

variable {c : LowerContext} {t : ValueType}

theorem isInt_of_isInteger (htype : type.isInteger = true) (h : c.valueType? type = some t) :
  t.isInt = true
  := by
  cases type <;> simp [Ty.isInteger] at htype <;>
  · simp only [LowerContext.valueType?, Substitution.apply, ValueType.ofTy?, Option.some.injEq] at h
    rw [← h]
    rfl

theorem isFloat_of_isFraction (htype : type.isFraction = true) (h : c.valueType? type = some t) :
  t.isFloat = true
  := by
  cases type <;> simp [Ty.isFraction] at htype <;>
  · simp only [LowerContext.valueType?, Substitution.apply, ValueType.ofTy?, Option.some.injEq] at h
    rw [← h]
    rfl

theorem isInt_of_isVar (hbinds : c.bindings.BindsIntegers) (htype : type.isVar = true)
    (h : c.valueType? type = some t) :
  t.isInt = true
  := by
  cases type <;> simp [Ty.isVar] at htype
  exact hbinds _ _ h

theorem isNumeric_of_isNumeric (hbinds : c.bindings.BindsIntegers) (htype : type.isNumeric = true)
    (h : c.valueType? type = some t) :
  t.isNumeric = true
  := by
  simp only [Ty.isNumeric, Bool.or_eq_true] at htype
  simp only [ValueType.isNumeric, Bool.or_eq_true]
  rcases htype with (htype | htype) | htype
  · exact .inl (isInt_of_isInteger htype h)
  · exact .inr (isFloat_of_isFraction htype h)
  · exact .inl (isInt_of_isVar hbinds htype h)

theorem valueType?_bool (h : c.valueType? .bool = some t) :
  t = .bool
  := by simpa [LowerContext.valueType?] using h.symm

theorem valueType?_str (h : c.valueType? .str = some t) :
  t = .str
  := by simpa [LowerContext.valueType?] using h.symm

theorem valueType?_ptr (h : c.valueType? .ptr = some t) :
  t = .ptr
  := by simpa [LowerContext.valueType?] using h.symm

theorem valueType?_array {element : Ty} {length : ArrayLength}
    (h : c.valueType? (.array element length) = some t) :
  ∃ e n, c.valueType? element = some e ∧ t = .array e n ∧ ∀ m, length = .fixed m → n = m
  := by
  simp only [LowerContext.valueType?, Substitution.apply] at h ⊢
  cases hlength : c.bindings.applyLength length with
  | var name => simp [hlength] at h
  | fixed n =>
    simp only [hlength, ValueType.ofTy?, Option.bind_eq_bind, Option.bind_eq_some_iff, Option.pure_def,
      Option.some.injEq] at h
    obtain ⟨e, he, rfl⟩ := h
    refine ⟨e, n, he, rfl, ?_⟩
    rintro m rfl
    simpa [Substitution.applyLength] using hlength.symm

theorem valueTypes?_applyAll {σ : Substitution} {types : List Ty} {ts : List ValueType}
    (h : valueTypes? (σ.applyAll types) = some ts) :
  List.Forall₂ (fun type t => ValueType.ofTy? (σ.apply type) = some t) types ts
  := by
  induction types generalizing ts with
  | nil =>
    obtain rfl : [] = ts := by simpa [Substitution.applyAll, valueTypes?] using h
    exact .nil
  | cons type types ih =>
    simp only [Substitution.applyAll, valueTypes?, Option.bind_eq_bind, Option.bind_eq_some_iff,
      Option.pure_def, Option.some.injEq] at h
    obtain ⟨t, ht, ts', hts, rfl⟩ := h
    exact .cons ht (ih hts)

theorem valueType?_tuple {types : List Ty} (h : c.valueType? (.tuple types) = some t) :
  ∃ ts, t = .tuple ts ∧ List.Forall₂ (fun type t => c.valueType? type = some t) types ts
  := by
  simp only [LowerContext.valueType?, Substitution.apply, ValueType.ofTy?, Option.bind_eq_bind,
    Option.bind_eq_some_iff, Option.pure_def, Option.some.injEq] at h
  obtain ⟨ts, hts, rfl⟩ := h
  exact ⟨ts, rfl, valueTypes?_applyAll hts⟩

end

namespace Lower.Ensures

variable {β : Type} {c : LowerContext} {s : LowerState} {span : Span} {type : Ty}
  {k : ValueType → Lower β} {post : β → LowerState → Prop}

theorem bind_concrete (h : ∀ t, c.valueType? type = some t → Ensures c s (k t) post) :
  Ensures c s (concrete span type >>= k) post
  := by
  rw [concrete, bind_assoc]
  exact .bind_read (.bind_required h)

theorem bind_typeOf {id : Nat} (hid : c.checked.type? id = some type)
    (h : ∀ t, c.valueType? type = some t → Ensures c s (k t) post) :
  Ensures c s (typeOf id span >>= k) post
  := by
  rw [typeOf, bind_assoc]
  refine .bind_read ?_
  rw [bind_assoc, hid]
  exact .bind_required fun type htype => .bind_concrete (by cases htype; exact h)

end Lower.Ensures

/-! ## States -/

/-- What is owed at the end of a scope can be done, and its names have slots of types of values. -/
structure Frame.Sound (c : LowerContext) (f : Function) (frame : Frame) : Prop where
  exits : ∀ slot, .release slot ∈ frame.exits → ∃ x, f.slots[slot]? = some x ∧ x.type = .ptr
  names : ∀ entry ∈ frame.names, ∃ type x, f.slots[entry.2]? = some x
    ∧ c.valueType? type = some x.type

theorem Frame.Sound.mono {c : LowerContext} {f g : Function} {frame : Frame} (h : frame.Sound c f)
    (hwidens : f.Widens g) :
  frame.Sound c g
  := by
  refine ⟨fun slot hslot => ?_, fun entry hentry => ?_⟩
  · obtain ⟨x, hx, htype⟩ := h.exits slot hslot
    exact ⟨x, hwidens.getElem?_slots hx, htype⟩
  · obtain ⟨type, x, hx, htype⟩ := h.names entry hentry
    exact ⟨type, x, hwidens.getElem?_slots hx, htype⟩

namespace LowerState

/-- The blocks that control has passed when it is in the current block. -/
def here (passed : Passed) (s : LowerState) : Set BlockId := insert s.current (passed s.current)

/-- Instructions are added to a block. -/
def Writes (s : LowerState) (id : BlockId) : Prop := s.isOpen = true ∧ id = s.current

/-- Jumps out of the current round or out of the loop go to a block. -/
def IsTarget (s : LowerState) (id : BlockId) : Prop :=
  ∃ targets, s.loop = some targets ∧ (id = targets.latch ∨ id = targets.exit)

/-- What holds between two actions. -/
structure Sound (c : LowerContext) (result : Ty) (passed : Passed) (s : LowerState) : Prop where
  built : s.function.Built c.bindings.BindsIntegers passed
  current : s.current < s.function.blocks.length
  unfinished : s.isOpen = true → (s.function.block s.current).terminator = .unreachable
  result : c.valueType? result = some s.function.result
  frames : ∀ frame ∈ s.frames, frame.Sound c s.function

/-- The slots of the names in scope have the types of the names. -/
def Binds (c : LowerContext) (s : LowerState) (scope : TypeScope) : Prop :=
  List.Forall₂ (fun entry binding => entry.1 = binding.1
      ∧ ∃ x, s.function.slots[entry.2]? = some x ∧ c.valueType? binding.2.type = some x.type)
    (s.frames.flatMap (·.names)) scope

/-- What holds where control can be. -/
structure Live (c : LowerContext) (result : Ty) (passed : Passed) (scope : TypeScope)
    (s : LowerState) : Prop where
  sound : s.Sound c result passed
  isOpen : s.isOpen = true
  binds : s.Binds c scope
  loop : ∀ id, s.IsTarget id → id < s.function.blocks.length ∧ (s.function.block id).params = []
    ∧ passed id ⊆ s.here passed

/-- What holds before a form: control can be here, and there is a scope for its names. -/
structure Ready (c : LowerContext) (result : Ty) (passed : Passed) (scope : TypeScope)
    (s : LowerState) : Prop extends Live c result passed scope s where
  inside : s.frames ≠ []

/-- What actions do to the state. -/
structure Grown (passed passed' : Passed) (s s' : LowerState) : Prop where
  widens : s.function.Widens s'.function
  entry : s'.function.entry = s.function.entry
  params : s'.function.params = s.function.params
  loops : s.function.loops <+: s'.function.loops
  others : ∀ id < s.function.blocks.length, ¬s.Writes id →
    s'.function.block id = s.function.block id
  kept : ∀ id < s.function.blocks.length,
    (s'.function.block id).params = (s.function.block id).params
  writes : ∀ id < s.function.blocks.length, s'.Writes id → s.Writes id
  targets : ∀ id, s.Writes id ∨ s.function.blocks.length ≤ id → ∀ next ∈ s'.function.successors id,
    s.function.blocks.length ≤ next ∨ s.IsTarget next
  passed : ∀ id < s.function.blocks.length, passed' id = passed id
  loop : s'.loop = s.loop
  tail : s'.frames.tail = s.frames.tail
  depth : s'.frames.length = s.frames.length

/-- What an action does if control was in the current block; the names in scope may change. -/
structure Reached (c : LowerContext) (result : Ty) (scope : TypeScope) (passed : Passed)
    (s : LowerState) (passed' : Passed) (s' : LowerState) : Prop where
  grown : s.Grown passed passed' s'
  sound : s'.Sound c result passed'
  here : s'.isOpen = true → s.here passed ⊆ s'.here passed'
  binds : s'.isOpen = true → s'.Binds c scope

/-- A variable has a value of a type that can be read here. -/
structure Holds (c : LowerContext) (passed : Passed) (s : LowerState) (v : VarId) (type : Ty) :
    Prop where
  typed : ∃ t, c.valueType? type = some t ∧ s.function.varTypes[v]? = some t
  defined : s.function.DefinesIn (s.here passed) v

section

variable {c : LowerContext} {result : Ty} {scope scope' : TypeScope} {passed passed' passed'' : Passed}
  {s s' s'' : LowerState}

theorem not_writes (h : s.isOpen = false) (id : BlockId) :
  ¬s.Writes id
  := by
  rintro ⟨hopen, -⟩
  simp [h] at hopen

/-! ## Growth -/

/-- Without an action nothing changes. -/
theorem Sound.grown (h : s.Sound c result passed) :
  s.Grown passed passed s
  := by
  refine ⟨.refl _, rfl, rfl, List.prefix_refl _, fun _ _ _ => rfl, fun _ _ => rfl,
    fun _ _ => id, fun id hid next hnext => ?_, fun _ _ => rfl, rfl, rfl, rfl⟩
  rcases hid with ⟨hopen, rfl⟩ | hid
  · simp [Function.successors, h.unfinished hopen, Terminator.successors] at hnext
  · rw [Function.successors_eq_nil hid] at hnext
    cases hnext

theorem Grown.trans (h : s.Grown passed passed' s') (h' : s'.Grown passed' passed'' s'') :
  s.Grown passed passed'' s''
  := by
  have hlength := h.widens.length
  have hkept : ∀ id < s.function.blocks.length, ¬s.Writes id → ¬s'.Writes id :=
    fun id hid hnot hwrites => hnot (h.writes id hid hwrites)
  refine ⟨h.widens.trans h'.widens, h'.entry.trans h.entry, h'.params.trans h.params,
    h.loops.trans h'.loops, fun id hid hnot => ?_, fun id hid => ?_, fun id hid hwrites => ?_,
    fun id hid next hnext => ?_, fun id hid => ?_, h'.loop.trans h.loop, h'.tail.trans h.tail,
    h'.depth.trans h.depth⟩
  · exact (h'.others id (hid.trans_le hlength) (hkept id hid hnot)).trans (h.others id hid hnot)
  · exact (h'.kept id (hid.trans_le hlength)).trans (h.kept id hid)
  · exact h.writes id hid (h'.writes id (hid.trans_le hlength) hwrites)
  · by_cases hnew : s'.Writes id ∨ s'.function.blocks.length ≤ id
    · refine (h'.targets id hnew next hnext).imp hlength.trans fun htarget => ?_
      simpa only [IsTarget, h.loop] using htarget
    · obtain ⟨hnot, hlt⟩ := not_or.mp hnew
      rw [Function.successors, h'.others id (Nat.lt_of_not_le hlt) hnot] at hnext
      exact h.targets id hid next hnext
  · exact (h'.passed id (hid.trans_le hlength)).trans (h.passed id hid)

/-! ## Forms one after the other -/

theorem Binds.mono (h : s.Binds c scope) (hslots : s.function.slots <+: s'.function.slots)
    (hframes : s'.frames = s.frames) :
  s'.Binds c scope
  := by
  rw [Binds, hframes]
  refine h.imp ?_
  rintro entry binding ⟨hname, x, hx, htype⟩
  obtain ⟨more, hmore⟩ := hslots
  refine ⟨hname, x, ?_, htype⟩
  rw [← hmore, List.getElem?_append_left (List.getElem?_eq_some_iff.mp hx).1, hx]

theorem slot?_eq_lookup (frames : Frames) (n : String) :
  frames.slot? n = (frames.flatMap (·.names)).lookup n
  := by
  induction frames with
  | nil => rfl
  | cons frame frames ih =>
    rw [Frames.slot?] at ih ⊢
    rw [List.findSome?_cons, List.flatMap_cons, List.lookup_append, ih]
    cases frame.names.lookup n <;> rfl

/-- A name in scope has a slot of its type, and only such a name has one. -/
theorem Binds.lookup (h : s.Binds c scope) (n : String) :
  (s.frames.slot? n = none ∧ scope.lookup n = none)
    ∨ ∃ slot known x, s.frames.slot? n = some slot ∧ scope.lookup n = some known
      ∧ s.function.slots[slot]? = some x ∧ c.valueType? known.type = some x.type
  := by
  rw [slot?_eq_lookup]
  rw [Binds] at h
  generalize s.frames.flatMap (·.names) = names at h
  induction h with
  | nil => exact .inl ⟨rfl, rfl⟩
  | @cons entry binding _ _ hfirst _ ih =>
    obtain ⟨hname, x, hx, htype⟩ := hfirst
    rw [List.lookup_cons, List.lookup_cons, ← hname]
    cases n == entry.1 with
    | true => exact .inr ⟨entry.2, binding.2, x, rfl, rfl, hx, htype⟩
    | false => exact ih

/-- The names in scope always have types, if only some. -/
theorem Sound.binds (h : s.Sound c result passed) :
  ∃ scope, s.Binds c scope
  := by
  have hnames : ∀ entry ∈ s.frames.flatMap (·.names), ∃ binding : String × Local, entry.1 = binding.1
      ∧ ∃ x, s.function.slots[entry.2]? = some x ∧ c.valueType? binding.2.type = some x.type := by
    intro entry hentry
    obtain ⟨frame, hframe, hentry⟩ := List.mem_flatMap.mp hentry
    obtain ⟨type, hx⟩ := (h.frames frame hframe).names entry hentry
    exact ⟨(entry.1, ⟨type, true⟩), rfl, hx⟩
  simp only [Binds]
  generalize s.frames.flatMap (·.names) = names at hnames
  induction names with
  | nil => exact ⟨[], .nil⟩
  | cons entry names ih =>
    obtain ⟨binding, hbinding⟩ := hnames entry (List.mem_cons_self ..)
    obtain ⟨scope, hscope⟩ := ih fun e he => hnames e (List.mem_cons_of_mem _ he)
    exact ⟨binding :: scope, .cons hbinding hscope⟩

theorem Reached.trans (h : Reached c result scope passed s passed' s') (hopen : s'.isOpen = true)
    (h' : Reached c result scope' passed' s' passed'' s'') :
  Reached c result scope' passed s passed'' s''
  := by
  refine ⟨h.grown.trans h'.grown, h'.sound, fun hopen' => ?_, h'.binds⟩
  exact (h.here hopen).trans (h'.here hopen')

/-- After an action that control comes out of, the next form can follow. -/
theorem Live.after (h : s.Live c result passed scope)
    (h' : Reached c result scope' passed s passed' s') (hopen : s'.isOpen = true) :
  s'.Live c result passed' scope'
  := by
  refine ⟨h'.sound, hopen, h'.binds hopen, fun id htarget => ?_⟩
  rw [IsTarget, h'.grown.loop] at htarget
  obtain ⟨hlt, hparams, hpassed⟩ := h.loop id htarget
  refine ⟨hlt.trans_le h'.grown.widens.length, (h'.grown.kept id hlt).trans hparams, ?_⟩
  rw [h'.grown.passed id hlt]
  exact hpassed.trans (h'.here hopen)

theorem Grown.inside (h : s.Grown passed passed' s') (hinside : s.frames ≠ []) :
  s'.frames ≠ []
  := by
  rw [← List.length_pos_iff, h.depth, List.length_pos_iff]
  exact hinside

theorem Ready.after (h : s.Ready c result passed scope)
    (h' : Reached c result scope' passed s passed' s') (hopen : s'.isOpen = true) :
  s'.Ready c result passed' scope'
  := ⟨h.toLive.after h' hopen, h'.grown.inside h.inside⟩

theorem Holds.mono {v : VarId} {type : Ty} (h : s.Holds c passed v type)
    (h' : Reached c result scope passed s passed' s') (hopen : s'.isOpen = true) :
  s'.Holds c passed' v type
  := by
  obtain ⟨⟨t, htype, hv⟩, hdefined⟩ := h
  exact ⟨⟨t, htype, h'.grown.widens.getElem?_varTypes hv⟩,
    h'.grown.widens.definesIn (h'.here hopen) hdefined⟩

/-! ## Instructions one after the other -/

/-- What an action does that only adds to the current block. -/
structure Straight (c : LowerContext) (result : Ty) (scope : TypeScope) (passed : Passed)
    (s s' : LowerState) : Prop extends Reached c result scope passed s passed s' where
  isOpen : s'.isOpen = true
  current : s'.current = s.current
  frames : s'.frames = s.frames

theorem Straight.trans (h : Straight c result scope passed s s')
    (h' : Straight c result scope passed s' s'') :
  Straight c result scope passed s s''
  := ⟨h.toReached.trans h.isOpen h'.toReached, h'.isOpen, h'.current.trans h.current,
    h'.frames.trans h.frames⟩

theorem Live.straight (h : s.Live c result passed scope) (h' : Straight c result scope passed s s') :
  s'.Live c result passed scope
  := h.after h'.toReached h'.isOpen

theorem Ready.straight (h : s.Ready c result passed scope) (h' : Straight c result scope passed s s') :
  s'.Ready c result passed scope
  := h.after h'.toReached h'.isOpen

/-- A change of the function that leaves the other blocks and all ways out of blocks alone. -/
theorem Live.straight_of_built (h : s.Live c result passed scope) {g : Function}
    (hbuilt : g.Built c.bindings.BindsIntegers passed) (hwidens : s.function.Widens g)
    (hentry : g.entry = s.function.entry) (hparams : g.params = s.function.params)
    (hloops : g.loops = s.function.loops) (hlength : g.blocks.length = s.function.blocks.length)
    (hothers : ∀ id, id ≠ s.current → g.block id = s.function.block id)
    (hkept : (g.block s.current).params = (s.function.block s.current).params)
    (hterminator : (g.block s.current).terminator = (s.function.block s.current).terminator)
    (hs' : s' = { s with shared := s'.shared, function := g }) :
  Straight c result scope passed s s'
  := by
  obtain ⟨shared, f', current', isOpen', frames', loop'⟩ := s'
  injection hs' with _ hfunction hcurrent hisOpen hframes hloop
  subst hfunction hcurrent hisOpen hframes hloop
  have hunfinished : (f'.block s.current).terminator = .unreachable :=
    hterminator.trans (h.sound.unfinished h.isOpen)
  have hgrown : s.Grown passed passed ⟨shared, f', s.current, s.isOpen, s.frames, s.loop⟩ := by
    refine ⟨hwidens, hentry, hparams, hloops ▸ List.prefix_refl _, fun id _ hnot => ?_,
      fun id _ => ?_, fun _ _ => id, fun id hid next hnext => ?_, fun _ _ => rfl, rfl, rfl, rfl⟩
    · exact hothers id fun heq => hnot ⟨h.isOpen, heq⟩
    · rcases eq_or_ne id s.current with rfl | hne
      · exact hkept
      · exact congrArg Block.params (hothers id hne)
    · rcases hid with ⟨-, rfl⟩ | hid
      · simp [Function.successors, hunfinished, Terminator.successors] at hnext
      · rw [Function.successors_eq_nil (hlength ▸ hid)] at hnext
        cases hnext
  refine ⟨⟨hgrown, ⟨hbuilt, hlength ▸ h.sound.current, fun _ => hunfinished, ?_, ?_⟩,
    fun _ => subset_rfl, fun _ => h.binds.mono hwidens.slots rfl⟩, h.isOpen, rfl, rfl⟩
  · rw [h.sound.result, hwidens.result]
  · exact fun frame hframe => (h.sound.frames frame hframe).mono hwidens

/-- Nothing changes but what the functions of the unit share. -/
theorem Live.straight_of_shared (h : s.Live c result passed scope) (shared : UnitState) :
  Straight c result scope passed s { s with shared := shared }
  := h.straight_of_built h.sound.built (.refl _) rfl rfl rfl rfl (fun _ _ => rfl) rfl rfl rfl

end

end LowerState

/-! ## Instructions -/

namespace Lower

open LowerState

section

variable {c : LowerContext} {result : Ty} {scope : TypeScope} {passed : Passed} {s : LowerState}

/-- A new slot. -/
theorem ensures_freshSlot (h : s.Live c result passed scope) (name : Option String)
    (type : ValueType) :
  Ensures c s (freshSlot name type) fun slot s' => Straight c result scope passed s s'
    ∧ ∃ x, s'.function.slots[slot]? = some x ∧ x.type = type
  := by
  rintro _ _ ⟨⟩
  refine ⟨h.straight_of_built (h.sound.built.addSlot ⟨name, type⟩)
    ⟨rfl, List.prefix_refl _, List.prefix_append _ _, le_rfl, fun _ _ => id, fun _ _ => id⟩
    rfl rfl rfl rfl (fun _ _ => rfl) rfl rfl rfl, ⟨name, type⟩, ?_, rfl⟩
  exact List.getElem?_concat_length

/-- An instruction at the end of the current block. -/
theorem ensures_emit (h : s.Live c result passed scope) {i : Instr} {span : Option Span}
    (huses : ∀ v ∈ i.uses, s.function.DefinesIn (s.here passed) v)
    (hdef : ∀ v, i.def? = some v →
      v < s.function.varTypes.length ∧ ∀ d, v ∉ (s.function.block d).defs)
    (haccess : ∀ slot index, i.access? = some (slot, index) → s.function.IsArray slot
      ∧ ∀ element length, s.function.slotType slot = .array element length →
        s.function.IsInRange index length ∨ s.function.ChecksIn (s.here passed) index length)
    (hright : c.bindings.BindsIntegers → Verify.instr s.function i = .ok ()) :
  Ensures c s (emit i span) fun _ s' => Straight c result scope passed s s'
    ∧ i ∈ (s'.function.block s'.current).instrs
  := by
  rintro _ _ ⟨⟩
  obtain ⟨hbuilt, hwidens⟩ := 
    h.sound.built.append h.sound.current ⟨i, span⟩ huses hdef haccess hright
  have hblock := Function.block_modifyBlock h.sound.current
    fun b : Block => { b with body := b.body ++ [⟨i, span⟩] }
  have hself := hblock s.current
  rw [if_pos rfl] at hself
  refine ⟨h.straight_of_built hbuilt hwidens rfl rfl rfl (by simp [Function.modifyBlock])
    (fun id hne => by rw [hblock, if_neg hne]) (by rw [hself]) (by rw [hself]) rfl, ?_⟩
  change i ∈ ((s.function.modifyBlock s.current _).block s.current).instrs
  rw [hself]
  simp [Block.instrs]

/-- An instruction that defines a new variable. -/
theorem ensures_define (h : s.Live c result passed scope) {type : ValueType} {span : Option Span}
    {instr : VarId → Instr} (huses : ∀ v, ∀ u ∈ (instr v).uses, s.function.DefinesIn (s.here passed) u)
    (hdef : ∀ v, (instr v).def? = some v)
    (haccess : ∀ v slot index, (instr v).access? = some (slot, index) → s.function.IsArray slot
      ∧ ∀ element length, s.function.slotType slot = .array element length →
        s.function.IsInRange index length ∨ s.function.ChecksIn (s.here passed) index length)
    (hright : c.bindings.BindsIntegers → ∀ g v, s.function.Widens g → g.varTypes[v]? = some type →
      Verify.instr g (instr v) = .ok ()) :
  Ensures c s (define type span instr) fun v s' => Straight c result scope passed s s'
    ∧ s'.function.varTypes[v]? = some type ∧ s'.function.DefinesIn (s'.here passed) v
    ∧ instr v ∈ (s'.function.block s'.current).instrs
  := by
  -- the variable is made first, and is not defined before the instruction is added
  set s₁ : LowerState := { s with function := (s.function.freshVar type).2 } with hs₁
  have hwidens : s.function.Widens s₁.function :=
    ⟨rfl, List.prefix_append _ _, List.prefix_refl _, le_rfl, fun _ _ => id, fun _ _ => id⟩
  have h₁ : Straight c result scope passed s s₁ :=
    h.straight_of_built (h.sound.built.addVar type) hwidens rfl rfl rfl rfl (fun _ _ => rfl) rfl rfl rfl
  have hv : s₁.function.varTypes[s.function.varTypes.length]? = some type :=
    List.getElem?_concat_length
  have hfresh : ∀ d, s.function.varTypes.length ∉ (s₁.function.block d).defs :=
    fun d hd => lt_irrefl _ (h.sound.built.bounded d _ hd)
  suffices hemit : Ensures c s₁ (do emit (instr s.function.varTypes.length) span
                                    return s.function.varTypes.length)
      fun v s' => Straight c result scope passed s s' ∧ s'.function.varTypes[v]? = some type
        ∧ s'.function.DefinesIn (s'.here passed) v ∧ instr v ∈ (s'.function.block s'.current).instrs by
    exact hemit
  refine (ensures_emit (h.straight h₁) (huses _) ?_ (haccess _) ?_).bind fun _ s' h' => .pure ?_
  · intro v hdef'
    obtain rfl : s.function.varTypes.length = v := Option.some.inj ((hdef _).symm.trans hdef')
    exact ⟨(List.getElem?_eq_some_iff.mp hv).1, hfresh⟩
  · exact fun htyped => hright htyped _ _ hwidens hv
  · obtain ⟨hstraight, hmem⟩ := h'
    refine ⟨h₁.trans hstraight, hstraight.grown.widens.getElem?_varTypes hv, ?_, hmem⟩
    exact ⟨s'.current, Set.mem_insert _ _, List.mem_append_right _
      (List.mem_filterMap.mpr ⟨_, hmem, hdef _⟩)⟩

end

end Lower

end FormCompiler
