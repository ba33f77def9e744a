import FormCompiler.Proofs.Lowering.Blocks
import FormCompiler.Proofs.Lowering.Elements

/-!
# Lowering of forms

`Lowers` says of an action that it keeps everything true that construction has to keep true, and that
its value has a type. There is one lemma for each form, which takes the parts of the form as actions
that do so. The forms here go through their operands one after the other; those that branch are in
`FormCompiler.Proofs.Lowering.Jumps`.
-/

namespace FormCompiler

open FormCompiler.Flow

namespace Lower

open LowerState

-- the equations of `form` are many, and all lemmas below need them
attribute [local simp] form

section

variable {c : LowerContext} {result type : Ty} {scope scope' : TypeScope} {passed passed' : Passed}
  {s s' : LowerState} {place : Place} {id : Nat} {span : Span} {leaves : Bool}
variable {e value target : Expr} {β : Type} {t : ValueType} {n name : String} {op : BinaryOp} {middle : TypeScope}
    {vs : List VarId} {types : List Ty} {element root : Ty} {action : Lower (Option VarId)} {rest items : List Expr}
    {length : ArrayLength}

/-- An action lowers a form of a type, wherever the names of a scope can be used. -/
def Lowers (c : LowerContext) (result : Ty) (scope : TypeScope) (type : Ty) (scope' : TypeScope)
    (leaves : Bool) (action : Lower (Option VarId)) : Prop :=
  ∀ passed s, s.Ready c result passed scope →
    Ensures c s action fun value s' => Gives c result scope' type leaves passed s value s'

/-! ## Operands -/

/-- An operand has a value, or control does not come out of it. -/
theorem Lowers.operand (h : Lowers c result scope type scope' leaves (expr .operand e))
    (hready : s.Ready c result passed scope) {k : Option VarId → Lower β} {post : β → LowerState → Prop}
    (hsome : ∀ v passed' s', Reached c result scope' passed s passed' s' →
      s'.Ready c result passed' scope' → s'.Holds c passed' v type → Ensures c s' (k (some v)) post)
    (hnone : ∀ passed' s', Reached c result scope' passed s passed' s' → s'.isOpen = false →
      Ensures c s' (k none) post) :
  Ensures c s (expr .operand e >>= fun value => need e value >>= k) post
  := by
  refine (h passed s hready).bind fun value s' ⟨passed', h', hvalue, _⟩ => ?_
  refine .bind_need (fun v hv => ?_) (hnone passed' s' h')
  obtain ⟨hopen, hholds⟩ := hvalue v hv
  exact hsome v passed' s' h' (hready.after h' hopen) hholds

/-- A new variable after the operands of a form. -/
theorem ensures_value (h : Reached c result scope' passed s passed' s') (hopen : s'.isOpen = true)
    (ht : c.valueType? type = some t) {span : Option Span} {instr : VarId → Instr}
    (hdefine : Ensures c s' (define t span instr) fun v s'' => Straight c result scope' passed' s' s''
      ∧ s''.function.varTypes[v]? = some t ∧ s''.function.DefinesIn (s''.here passed') v
      ∧ instr v ∈ (s''.function.block s''.current).instrs) :
  Ensures c s' (do return some (← define t span instr)) fun value s'' =>
    Gives c result scope' type false passed s value s''
  := by
  refine hdefine.bind fun v s'' ⟨h'', htype, hdefined, _⟩ => .pure (.straight h hopen h'' ?_)
  rintro _ ⟨⟩
  exact ⟨⟨t, ht, htype⟩, hdefined⟩

/-- Without a form nothing happens. -/
theorem Live.reached (h : s.Live c result passed scope) :
  Reached c result scope passed s passed s
  := ⟨h.sound.grown, h.sound, fun _ => subset_rfl, fun _ => h.binds⟩

/-! ## Literals, names and operators -/

theorem lowers_literal {value : Literal} (hid : c.checked.type? id = some type)
    (hvalue : value.Fits type) :
  Lowers c result scope type scope false (form place id span (.literal value))
  := by
  intro passed s h
  simp only [form]
  refine .bind_typeOf hid fun t ht => ?_
  refine (ensures_literal h.toLive hvalue ht _).bind fun v s' ⟨h', hv, _⟩ => .pure ?_
  refine .straight (Live.reached h.toLive) h.isOpen h' ?_
  rintro _ ⟨⟩
  exact hv

theorem lowers_name (hid : c.checked.type? id = some type) (hname : ∀ x, scope.lookup n = some x → x.type = type) :
  Lowers c result scope type scope false (form place id span (.name n))
  := by
  intro passed s h
  simp only [form]
  refine (ensures_name h.toLive hid hname).bind fun v s' ⟨h', hv⟩ => .pure ?_
  refine .straight (Live.reached h.toLive) h.isOpen h' ?_
  rintro _ ⟨⟩
  exact hv

theorem isScalar_of_isNumeric (h : t.isNumeric = true) :
  t.isScalar = true
  := by
  cases t <;> simp_all [ValueType.isNumeric, ValueType.isInt, ValueType.isFloat, ValueType.isScalar]

/-- Operands that can be compared are scalars. -/
theorem isScalar_of_isComparison (hbinds : c.bindings.BindsIntegers) {operand : Ty}
    (hop : (Check.operandKind operand op).1 = true) (hcompares : op.isComparison = true)
    (ht : c.valueType? operand = some t) :
  t.isScalar = true
  := by
  have hordered : operand.isNumeric = true → t.isScalar = true :=
    fun h => isScalar_of_isNumeric (isNumeric_of_isNumeric hbinds h ht)
  have hequal : (operand.isPrimitive || operand = .str || operand.isVar) = true → t.isScalar = true := by
    simp only [Bool.or_eq_true, decide_eq_true_eq]
    rintro ((h | rfl) | h)
    · cases operand <;> simp [Ty.isPrimitive] at h
      all_goals
        simp only [LowerContext.valueType?, Substitution.apply, ValueType.ofTy?, Option.some.injEq] at ht
        rw [← ht]
        rfl
    · rw [valueType?_str ht]
      rfl
    · exact isScalar_of_isNumeric (isNumeric_of_isNumeric hbinds (by simp [Ty.isNumeric, h]) ht)
  cases op <;> simp only [BinaryOp.isComparison, Bool.false_eq_true] at hcompares
  case eq | ne => exact hequal hop
  all_goals exact hordered hop

theorem verify_binary {f : Function} (hbinds : c.bindings.BindsIntegers) {operand : Ty}
    (hop : (Check.operandKind operand op).1 = true) {left right dst : VarId} {t' : ValueType}
    (ht : c.valueType? operand = some t) (hleft : f.varTypes[left]? = some t) (hright : f.varTypes[right]? = some t)
    (ht' : c.valueType? (if op.isComparison then .bool else operand) = some t') (hdst : f.varTypes[dst]? = some t') :
  Verify.value f dst (.binary op left right) = .ok ()
  := by
  have hint : (operand.isInteger || operand.isVar) = true → t.isInt = true := by
    rw [Bool.or_eq_true]
    rintro (h | h)
    · exact isInt_of_isInteger h ht
    · exact isInt_of_isVar hbinds h ht
  have hsame : Verify.same f left right = .ok () := Verify.same_eq_ok.mpr ⟨t, hleft, hright⟩
  refine bind_eq_ok.mpr ⟨(), hsame, ?_⟩
  split
  · next hcompares =>
    rw [if_pos hcompares] at ht'
    have hscalar := isScalar_of_isComparison hbinds hop hcompares ht
    refine bind_eq_ok.mpr ⟨(), Verify.expectThat_eq_ok.mpr ⟨t, hleft, hscalar⟩, ?_⟩
    exact Verify.expect_eq_ok.mpr (hdst.trans (congrArg _ (valueType?_bool ht')))
  next hcompares =>
  rw [if_neg hcompares] at ht'
  obtain rfl : t = t' := Option.some.inj (ht.symm.trans ht')
  have hdst' : Verify.same f dst left = .ok () := Verify.same_eq_ok.mpr ⟨t, hdst, hleft⟩
  split
  · next hlogical =>
    obtain rfl : operand = .bool := by
      cases op <;> simp_all [BinaryOp.isLogical, Check.operandKind]
    obtain rfl := valueType?_bool ht
    exact bind_eq_ok.mpr ⟨(), Verify.expect_eq_ok.mpr hleft, Verify.expect_eq_ok.mpr hdst⟩
  split
  · next hbitwise =>
    have hkind : (operand.isInteger || operand.isVar) = true := by
      cases op <;> simp_all [BinaryOp.isBitwise, Check.operandKind]
    exact bind_eq_ok.mpr ⟨(), Verify.expectThat_eq_ok.mpr ⟨t, hleft, hint hkind⟩, hdst'⟩
  · next hlogical hbitwise =>
    have hnumeric : t.isNumeric = true := by
      cases op <;> simp only [BinaryOp.isComparison, BinaryOp.isLogical, BinaryOp.isBitwise,
        not_true_eq_false] at hcompares hlogical hbitwise
      case mod => simp [ValueType.isNumeric, hint hop]
      all_goals exact isNumeric_of_isNumeric hbinds hop ht
    exact bind_eq_ok.mpr ⟨(), Verify.expectThat_eq_ok.mpr ⟨t, hleft, hnumeric⟩, hdst'⟩

theorem lowers_binary {lhs rhs : Expr} {operand : Ty} {leaves' : Bool}
    (hleft : Lowers c result scope operand middle leaves (expr .operand lhs))
    (hright : Lowers c result middle operand scope' leaves' (expr .operand rhs))
    (hop : (Check.operandKind operand op).1 = true)
    (hid : c.checked.type? id = some (if op.isComparison then .bool else operand)) :
  Lowers c result scope (if op.isComparison then .bool else operand) scope' false
    (form place id span (.binary op lhs rhs))
  := by
  intro passed s h
  simp only [form]
  refine hleft.operand h (fun left passed₁ s₁ h₁ hready₁ hholds₁ => ?_)
    fun passed₁ s₁ h₁ hclosed => .pure (.lost h₁ hclosed)
  refine hright.operand hready₁ (fun right passed₂ s₂ h₂ hready₂ hholds₂ => ?_)
    fun passed₂ s₂ h₂ hclosed => .pure (.lost (h₁.trans hready₁.isOpen h₂) hclosed)
  refine .bind_typeOf hid fun t ht => ?_
  obtain ⟨⟨t₁, ht₁, hleft⟩, hleft'⟩ := hholds₁.mono h₂ hready₂.isOpen
  obtain ⟨⟨t₂, ht₂, hright⟩, hright'⟩ := hholds₂
  obtain rfl : t₁ = t₂ := Option.some.inj (ht₁.symm.trans ht₂)
  refine ensures_value (h₁.trans hready₁.isOpen h₂) hready₂.isOpen ht (ensures_define hready₂.toLive ?_
    (fun _ => rfl) (by simp [Instr.access?]) fun hbinds g v hg hv => ?_)
  · simpa [Instr.uses, Value.uses] using ⟨hleft', hright'⟩
  · exact verify_binary hbinds hop ht₁ (hg.getElem?_varTypes hleft) (hg.getElem?_varTypes hright) ht hv

theorem lowers_unary {op : UnaryOp} {operand : Expr}
    (hoperand : Lowers c result scope type scope' leaves (expr .operand operand)) (hop : op.Takes type)
    (hid : c.checked.type? id = some type) :
  Lowers c result scope type scope' false (form place id span (.unary op operand))
  := by
  intro passed s h
  simp only [form]
  refine hoperand.operand h (fun v passed₁ s₁ h₁ hready₁ hholds₁ => ?_)
    fun passed₁ s₁ h₁ hclosed => .pure (.lost h₁ hclosed)
  refine .bind_typeOf hid fun t ht => ?_
  obtain ⟨⟨t₁, ht₁, hv⟩, hdefined⟩ := hholds₁
  obtain rfl : t = t₁ := Option.some.inj (ht.symm.trans ht₁)
  refine ensures_value h₁ hready₁.isOpen ht (ensures_define hready₁.toLive ?_ (fun _ => rfl)
    (by simp [Instr.access?]) fun hbinds g dst hg hdst => ?_)
  · simpa [Instr.uses, Value.uses] using hdefined
  · have hsame : Verify.same g dst v = .ok () :=
      Verify.same_eq_ok.mpr ⟨t, hdst, hg.getElem?_varTypes hv⟩
    refine bind_eq_ok.mpr ⟨(), hsame, ?_⟩
    cases op with
    | neg => exact Verify.expectThat_eq_ok.mpr ⟨t, hdst, isNumeric_of_isNumeric hbinds hop ht⟩
    | not =>
      obtain rfl : type = .bool := hop
      exact Verify.expect_eq_ok.mpr (hdst.trans (congrArg _ (valueType?_bool ht)))
    | bitNot => exact Verify.expectThat_eq_ok.mpr ⟨t, hdst, isInt_of_isInteger hop ht⟩

/-! ## Several operands -/

/-- Variables have values of types that can be read here. -/
def HoldAll (c : LowerContext) (passed : Passed) (s : LowerState) (vs : List VarId) (types : List Ty) :
    Prop :=
  List.Forall₂ (fun v type => s.Holds c passed v type) vs types

theorem HoldAll.defined (h : HoldAll c passed s vs types) :
  ∀ v ∈ vs, s.function.DefinesIn (s.here passed) v
  := by
  induction h with
  | nil => simp
  | cons hfirst _ ih => simpa using ⟨hfirst.defined, ih⟩

theorem HoldAll.varType {n : Nat} (h : HoldAll c passed s vs (List.replicate n element))
    (ht : c.valueType? element = some t) :
  ∀ v ∈ vs, s.function.varTypes[v]? = some t
  := by
  induction n generalizing vs with
  | zero =>
    cases h
    simp
  | succ n ih =>
    cases h with
    | cons hfirst hrest =>
      obtain ⟨⟨t', ht', hv⟩, -⟩ := hfirst
      obtain rfl : t' = t := Option.some.inj (ht'.symm.trans ht)
      exact List.forall_mem_cons.mpr ⟨hv, ih hrest⟩

theorem HoldAll.mapM_varType (h : HoldAll c passed s vs types) {ts : List ValueType}
    (hts : List.Forall₂ (fun type t => c.valueType? type = some t) types ts) {g : Function}
    (hg : s.function.Widens g) :
  vs.mapM (Verify.varType g) = .ok ts
  := by
  induction h generalizing ts with
  | nil =>
    cases hts
    rfl
  | cons hfirst _ ih =>
    cases hts with
    | cons ht hrest =>
      obtain ⟨⟨t', ht', hv⟩, -⟩ := hfirst
      obtain rfl := Option.some.inj (ht'.symm.trans ht)
      rw [List.mapM_cons, Verify.varType_eq_ok.mpr (hg.getElem?_varTypes hv), ih hrest]
      rfl

/-- An action lowers several operands, one after the other. -/
def LowersAll (c : LowerContext) (result : Ty) (scope : TypeScope) (types : List Ty)
    (scope' : TypeScope) (action : Lower (Option (List VarId))) : Prop :=
  ∀ passed s, s.Ready c result passed scope → Ensures c s action fun values s' =>
    ∃ passed', Reached c result scope' passed s passed' s'
      ∧ (∀ vs, values = some vs → s'.isOpen = true ∧ HoldAll c passed' s' vs types)
      ∧ (values = none → s'.isOpen = false)

theorem LowersAll.operands {action : Lower (Option (List VarId))} (h : LowersAll c result scope types scope' action)
    (hready : s.Ready c result passed scope) {k : Option (List VarId) → Lower β} {post : β → LowerState → Prop}
    (hsome : ∀ vs passed' s', Reached c result scope' passed s passed' s' →
      s'.Ready c result passed' scope' → HoldAll c passed' s' vs types → Ensures c s' (k (some vs)) post)
    (hnone : ∀ passed' s', Reached c result scope' passed s passed' s' → s'.isOpen = false →
      Ensures c s' (k none) post) :
  Ensures c s (action >>= k) post
  := by
  refine (h passed s hready).bind fun values s' ⟨passed', h', hvalues, hclosed⟩ => ?_
  cases values with
  | none => exact hnone passed' s' h' (hclosed rfl)
  | some vs =>
    obtain ⟨hopen, hholds⟩ := hvalues vs rfl
    exact hsome vs passed' s' h' (hready.after h' hopen) hholds

theorem lowersAll_nil :
  LowersAll c result scope [] scope (operands [])
  := by
  intro passed s h
  simp only [operands]
  refine .pure ⟨passed, Live.reached h.toLive, ?_, by simp⟩
  rintro _ ⟨⟩
  exact ⟨h.isOpen, .nil⟩

theorem lowersAll_cons (he : Lowers c result scope type middle leaves (expr .operand e))
    (hrest : LowersAll c result middle types scope' (operands rest)) :
  LowersAll c result scope (type :: types) scope' (operands (e :: rest))
  := by
  intro passed s h
  simp only [operands]
  refine he.operand h (fun v passed₁ s₁ h₁ hready₁ hv => ?_) fun passed₁ s₁ h₁ hclosed => .pure ?_
  · refine hrest.operands hready₁ (fun vs passed₂ s₂ h₂ hready₂ hvs => .pure ?_)
      fun passed₂ s₂ h₂ hclosed => .pure ?_
    · refine ⟨passed₂, h₁.trans hready₁.isOpen h₂, ?_, by simp⟩
      rintro _ ⟨⟩
      exact ⟨hready₂.isOpen, .cons (hv.mono h₂ hready₂.isOpen) hvs⟩
    · exact ⟨passed₂, h₁.trans hready₁.isOpen h₂, by simp, fun _ => hclosed⟩
  · refine ⟨passed₁, ⟨h₁.grown, h₁.sound, by simp [hclosed], by simp [hclosed]⟩, by simp, fun _ => hclosed⟩

theorem lowers_call {callee : String} {args : List Expr}
    (hargs : LowersAll c result scope types scope' (operands args)) (hid : c.checked.type? id = some type) :
  Lowers c result scope type scope' false (form place id span (.call callee args))
  := by
  intro passed s h
  simp only [form]
  refine .bind_read (.bind_required fun sig _ => ?_)
  refine hargs.operands h (fun vs passed₁ s₁ h₁ hready₁ hvs => ?_)
    fun passed₁ s₁ h₁ hclosed => .pure (.lost h₁ hclosed)
  exact (ensures_callOn hready₁.toLive sig hvs.defined hid).mono fun value s₂ ⟨h₂, hvalue⟩ =>
    .straight h₁ hready₁.isOpen h₂ hvalue

theorem lowers_array (hitems : LowersAll c result scope (List.replicate items.length element) scope' (operands items))
    (hid : c.checked.type? id = some (.array element (.fixed items.length))) :
  Lowers c result scope (.array element (.fixed items.length)) scope' false
    (form place id span (.array items))
  := by
  intro passed s h
  simp only [form]
  refine hitems.operands h (fun vs passed₁ s₁ h₁ hready₁ hvs => ?_)
    fun passed₁ s₁ h₁ hclosed => .pure (.lost h₁ hclosed)
  refine .bind_typeOf hid fun t ht => ?_
  refine ensures_value h₁ hready₁.isOpen ht (ensures_define hready₁.toLive ?_ (fun _ => rfl)
    (by simp [Instr.access?]) fun _ g dst hg hdst => ?_)
  · exact fun _ => hvs.defined
  · obtain ⟨e, n, he, rfl, hn⟩ := valueType?_array ht
    obtain rfl := hn _ rfl
    have hlength : vs.length = items.length := by simpa using List.Forall₂.length_eq hvs
    refine bind_eq_ok.mpr ⟨_, Verify.varType_eq_ok.mpr hdst, ?_⟩
    refine bind_eq_ok.mpr ⟨(), Verify.ensure_eq_ok.mpr (by simp [hlength]), forM_eq_ok.mpr fun v hv => ?_⟩
    exact Verify.expect_eq_ok.mpr (hg.getElem?_varTypes (hvs.varType he v hv))

theorem lowers_tuple (hitems : LowersAll c result scope types scope' (operands items))
    (hid : c.checked.type? id = some (.tuple types)) :
  Lowers c result scope (.tuple types) scope' false (form place id span (.tuple items))
  := by
  intro passed s h
  simp only [form]
  refine hitems.operands h (fun vs passed₁ s₁ h₁ hready₁ hvs => ?_)
    fun passed₁ s₁ h₁ hclosed => .pure (.lost h₁ hclosed)
  refine .bind_typeOf hid fun t ht => ?_
  refine ensures_value h₁ hready₁.isOpen ht (ensures_define hready₁.toLive ?_ (fun _ => rfl)
    (by simp [Instr.access?]) fun _ g dst hg hdst => ?_)
  · exact fun _ => hvs.defined
  · obtain ⟨ts, rfl, hts⟩ := valueType?_tuple ht
    exact bind_eq_ok.mpr ⟨ts, hvs.mapM_varType hts hg, Verify.expect_eq_ok.mpr hdst⟩

/-! ## Bindings and assignments -/

/-- What a statement does that has no value. -/
theorem Gives.statement (h : Reached c result scope passed s passed' s')
    (hleaves : leaves = true → s'.isOpen = false) :
  Gives c result scope type leaves passed s none s'
  := ⟨passed', h, by simp, hleaves⟩

theorem lowers_declare {isMutable : Bool} {written : Option Ty} {init : Expr} {t : Ty}
    (hinit : Lowers c result scope t scope' leaves (expr .operand init)) (hid : c.checked.type? init.id = some t)
    (halloc : init.isAlloc = true → t = .ptr) :
  Lowers c result scope type ((name, ⟨t, isMutable⟩) :: scope') false
    (form place id span (.declare isMutable name written init))
  := by
  intro passed s h
  simp only [form]
  refine .bind_typeOf hid fun vt hvt => ?_
  refine hinit.operand h (fun v passed₁ s₁ h₁ hready₁ hv => ?_)
    fun passed₁ s₁ h₁ hclosed => .pure (.lost h₁ hclosed)
  refine (ensures_bindValue hready₁ ⟨t, isMutable⟩ hvt hv name span).bind
    fun slot s₂ ⟨h₂, hopen₂, x, hx, hxt⟩ => ?_
  have h₁₂ := h₁.trans hready₁.isOpen h₂
  have hready₂ := hready₁.after h₂ hopen₂
  refine .bind_ite (m := fun s₃ => Reached c result ((name, ⟨t, isMutable⟩) :: scope') passed s passed₁ s₃)
    (fun hkeeps => ?_) (fun _ => h₁₂) fun s₃ h₃ => .pure (.statement h₃ (by simp))
  have hptr : x.type = .ptr := by
    rw [hxt]
    rw [halloc (Bool.and_eq_true_iff.mp hkeeps).1] at hvt
    exact valueType?_ptr hvt
  exact (ensures_releaseAtExit hready₂ ⟨x, hx, hptr⟩ _ _).mono fun _ s₃ h₃ => h₁₂.trans hopen₂ h₃.1

theorem lowers_assign {t : Ty} (hname : scope.lookup name = some ⟨t, true⟩)
    (hvalue : Lowers c result scope t scope' leaves (expr .operand value)) :
  Lowers c result scope type scope' false (form place id span (.assign name value))
  := by
  intro passed s h
  simp only [form]
  refine .bind_slot? (.bind_required fun slot hslot => ?_)
  rcases h.binds.lookup name with ⟨-, hnone⟩ | ⟨slot', t', x, hslot', hlookup, hx, hxt⟩
  · simp [hname] at hnone
  obtain rfl := Option.some.inj (hslot.symm.trans hslot')
  obtain rfl := Option.some.inj (hlookup.symm.trans hname)
  refine hvalue.operand h (fun v passed₁ s₁ h₁ hready₁ hv => ?_)
    fun passed₁ s₁ h₁ hclosed => .pure (.lost h₁ hclosed)
  obtain ⟨⟨vt, hvt, hv⟩, hdefined⟩ := hv
  obtain rfl := Option.some.inj (hvt.symm.trans hxt)
  refine (ensures_store hready₁.toLive (h₁.grown.widens.getElem?_slots hx) hv hdefined _).bind
    fun _ s₂ h₂ => .pure (.statement (h₁.trans hready₁.isOpen h₂.toReached) (by simp))

/-! ## Scopes -/

theorem lowers_statements_nil :
  Lowers c result scope type scope false (statements [])
  := by
  intro passed s h
  simp only [statements]
  exact .pure (.statement (Live.reached h.toLive) (by simp))

theorem lowers_statements_cons {t : Ty} {leaves' : Bool}
    (he : Lowers c result scope t middle leaves (expr (.statement rest rest.isEmpty) e))
    (hlast : rest.isEmpty = true → t = type ∧ scope' = middle ∧ leaves' = leaves)
    (hrest : rest.isEmpty = false → Lowers c result middle type scope' leaves' (statements rest)) :
  Lowers c result scope type scope' leaves' (statements (e :: rest))
  := by
  intro passed s h
  simp only [statements]
  refine (he passed s h).bind fun value s₁ ⟨passed₁, h₁, hvalue, hleaves⟩ => .bind_isOpen ?_
  cases hopen : s₁.isOpen with
  | false => exact .pure (.lost h₁ hopen)
  | true =>
    have hready₁ := h.after h₁ hopen
    cases hempty : rest.isEmpty with
    | true =>
      obtain ⟨rfl, rfl, rfl⟩ := hlast hempty
      exact .pure ⟨passed₁, h₁, hvalue, hleaves⟩
    | false =>
      refine (hrest hempty passed₁ s₁ hready₁).mono fun value' s₂ ⟨passed₂, h₂, hvalue', hleaves'⟩ => ?_
      exact ⟨passed₂, h₁.trans hopen h₂, hvalue', hleaves'⟩

/-- An action lowers something in scopes of its own. -/
def LowersInScope (c : LowerContext) (result : Ty) (scope : TypeScope) (type : Ty) (leaves : Bool)
    (action : Lower (Option VarId)) : Prop :=
  ∀ passed s, s.Ready c result passed scope → Ensures c s action fun value s' =>
    Gives c result scope type leaves passed s value s' ∧ s'.frames = s.frames

theorem LowersInScope.lowers (h : LowersInScope c result scope type leaves action) :
  Lowers c result scope type scope leaves action
  := fun passed s hready => (h passed s hready).mono fun _ _ h' => h'.1

theorem Lowers.inScope (h : Lowers c result scope type scope' leaves action) :
  LowersInScope c result scope type leaves (inScope action)
  := by
  intro passed s hready
  refine ensures_inScope (v := fun value => value) hready.toLive fun s₁ hready₁ _ => ?_
  exact (h passed s₁ hready₁).mono fun value s' h' => ⟨scope', h'⟩

/-! ## Elements -/

theorem Ensures.bind_arrayLength (hid : c.checked.type? e.id = some (.array element length)) {k : Nat → Lower β}
    {post : β → LowerState → Prop}
    (h : ∀ t n, c.valueType? (.array element length) = some (.array t n) → Ensures c s (k n) post) :
  Ensures c s (arrayLength e >>= k) post
  := by
  rw [arrayLength, bind_assoc]
  refine .bind_typeOf hid fun t ht => ?_
  obtain ⟨t', n, -, rfl, -⟩ := valueType?_array ht
  exact h t' n ht

/-- An action lowers an index; a literal gives a constant. -/
def LowersIndex (c : LowerContext) (result : Ty) (scope : TypeScope) (index : Expr)
    (scope' : TypeScope) : Prop :=
  ∀ passed s, s.Ready c result passed scope → Ensures c s (expr .operand index) fun value s' =>
    ∃ passed', Reached c result scope' passed s passed' s' ∧ ∀ v, value = some v → s'.isOpen = true
      ∧ HoldsInteger c passed' s' v
      ∧ ∀ i, index.intLiteral? = some i → ∀ n : Nat, 0 ≤ i → i < n → s'.function.IsInRange v n

theorem Lowers.index {index : Expr} (h : Lowers c result scope type scope' leaves (expr .operand index))
    (htyped : HasType c.checked result scope index type scope') (htype : type.isInteger = true) :
  LowersIndex c result scope index scope'
  := by
  intro passed s hready
  cases hliteral : index.intLiteral? with
  | none =>
    refine (h passed s hready).mono fun value s' ⟨passed', h', hvalue, _⟩ => ⟨passed', h', fun v hv => ?_⟩
    obtain ⟨hopen, hv⟩ := hvalue v hv
    exact ⟨hopen, ⟨type, htype, hv⟩, by simp⟩
  | some i =>
    obtain ⟨id, span, rfl⟩ : ∃ id span, index = .node id span (.literal (.int i)) := by
      unfold Expr.intLiteral? at hliteral
      split at hliteral
      · obtain rfl := Option.some.inj hliteral
        exact ⟨_, _, rfl⟩
      · cases hliteral
    simp only [HasType, FormHasType] at htyped
    obtain ⟨hid, hfits, rfl⟩ := htyped
    simp only [expr, form]
    refine .bind_isOpen ?_
    rw [if_pos hready.isOpen]
    refine .bind_typeOf hid fun t ht => ?_
    refine (ensures_literal hready.toLive hfits ht _).bind fun v s' ⟨h', hv, hmem⟩ => .pure ?_
    refine ⟨passed, h'.toReached, ?_⟩
    rintro _ ⟨⟩
    refine ⟨h'.isOpen, ⟨type, htype, hv⟩, fun j hj n hle hlt => ?_⟩
    obtain rfl := Option.some.inj hj
    exact ⟨_, i, hmem, hle, hlt⟩

/-- An index that is in range, or that is compared with the length before the access. -/
theorem LowersIndex.operand {index : Expr} (h : LowersIndex c result scope index scope')
    (hready : s.Ready c result passed scope) (element : Ty) (hbounds : c.checked.Bounds id index length)
    {k : Option VarId → Lower β} {post : β → LowerState → Prop}
    (hsome : ∀ v passed' s', Reached c result scope' passed s passed' s' →
      s'.Ready c result passed' scope' → HoldsInteger c passed' s' v →
      (∀ t n, c.valueType? (.array element length) = some (.array t n) →
        c.checked.isDynamicIndex id = true ∨ s'.function.IsInRange v n) →
      Ensures c s' (k (some v)) post)
    (hnone : ∀ passed' s', Reached c result scope' passed s passed' s' → s'.isOpen = false →
      Ensures c s' (k none) post) :
  Ensures c s (expr .operand index >>= fun value => need index value >>= k) post
  := by
  refine (h passed s hready).bind fun value s₁ ⟨passed₁, h₁, hvalue⟩ => ?_
  refine .bind_need (fun v hv => ?_) (hnone passed₁ s₁ h₁)
  obtain ⟨hopen, hinteger, hliteral⟩ := hvalue v hv
  refine hsome v passed₁ s₁ h₁ (hready.after h₁ hopen) hinteger fun t n hn => hbounds.imp_right ?_
  rintro ⟨i, m, hi, rfl, hle, hlt⟩
  obtain ⟨t', n', -, heq, hn'⟩ := valueType?_array hn
  injection heq with _ heq
  rw [heq, hn' m rfl]
  exact hliteral i hi m hle hlt

/-- An action finds or makes the slot of an array. -/
def LowersSlot (c : LowerContext) (result : Ty) (scope : TypeScope) (type : Ty) (scope' : TypeScope)
    (action : Lower (Option SlotId)) : Prop :=
  ∀ passed s, s.Ready c result passed scope → Ensures c s action fun slot s' =>
    ∃ passed', Reached c result scope' passed s passed' s'
      ∧ (∀ k, slot = some k → s'.isOpen = true
        ∧ ∃ x, s'.function.slots[k]? = some x ∧ c.valueType? type = some x.type)
      ∧ (slot = none → s'.isOpen = false)

theorem lowersSlot {shape : Shape Expr}
    (hform : Lowers c result scope type scope' leaves (form .operand id span shape))
    (hname : ∀ n, shape = .name n → (∀ x, scope.lookup n = some x → x.type = type) ∧ scope' = scope) :
  LowersSlot c result scope type scope' (arraySlot (.node id span shape))
  := by
  intro passed s h
  cases shape
  case' name n =>
    simp only [arraySlot]
    refine .bind_slot? ?_
    obtain ⟨htype, hscope⟩ := hname n rfl
    rcases h.binds.lookup n with ⟨hslot, -⟩ | ⟨slot, t, x, hslot, hlookup, hx, hxt⟩
    on_goal 2 =>
      rw [hslot, hscope]
      obtain rfl := htype t hlookup
      refine .pure ⟨passed, Live.reached h.toLive, ?_, by simp⟩
      rintro _ ⟨⟩
      exact ⟨h.isOpen, x, hx, hxt⟩
    rw [hslot]
  -- what is not a local is copied
  all_goals
    simp only [arraySlot, pure_bind, Option.isSome_none, Bool.false_eq_true, if_false]
    refine .bind_isOpen ?_
    rw [if_pos h.isOpen]
    refine (hform passed s h).bind ?_
    rintro value s₁ ⟨passed₁, h₁, hvalue, -⟩
    refine .bind_need (fun v hv => ?_) fun hclosed => .pure ⟨passed₁, h₁, by simp, fun _ => hclosed⟩
    obtain ⟨hopen, ⟨t, ht, hv⟩, hdefined⟩ := hvalue v hv
    refine (ensures_spill (h.after h₁ hopen).toLive hv hdefined _).bind ?_
    rintro slot s₂ ⟨h₂, x, hx, hxt⟩
    refine .pure ⟨passed₁, h₁.trans hopen h₂.toReached, ?_, by simp⟩
    rintro _ ⟨⟩
    exact ⟨h₂.isOpen, x, hx, hxt ▸ ht⟩

theorem lowers_element_array {index : Expr}
    (htarget : LowersSlot c result scope (.array type length) middle (arraySlot target))
    (htype : c.checked.type? target.id = some (.array type length))
    (hindex : LowersIndex c result middle index scope') (hbounds : c.checked.Bounds id index length)
    (hid : c.checked.type? id = some type) :
  Lowers c result scope type scope' false (form place id span (.element target index))
  := by
  intro passed s h
  simp only [form]
  refine .bind_typeOf htype fun t ht => ?_
  obtain ⟨e, n, he, rfl, hn⟩ := valueType?_array ht
  refine (htarget passed s h).bind fun slot s₁ ⟨passed₁, h₁, hslot, hnone⟩ => ?_
  cases slot with
  | none => exact .pure (.lost h₁ (hnone rfl))
  | some slot =>
    obtain ⟨hopen, x, hx, hxt⟩ := hslot slot rfl
    have hready₁ := h.after h₁ hopen
    refine hindex.operand hready₁ type hbounds (fun v passed₂ s₂ h₂ hready₂ hinteger hrange => ?_)
      fun passed₂ s₂ h₂ hclosed => .pure (.lost (h₁.trans hopen h₂) hclosed)
    refine (ensures_boundsCheck hready₂.toLive hinteger (hrange e n ht)).bind
      fun _ s₃ ⟨h₃, hguards⟩ => .bind_typeOf hid fun t ht' => ?_
    have h₂₃ := h₂.trans hready₂.isOpen h₃.toReached
    have hx₃ := h₂₃.grown.widens.getElem?_slots hx
    have haccess : Accesses c passed₂ s₃ slot v type := by
      refine ⟨fun e' n' hslot' => ?_, ⟨x, length, hx₃, hxt⟩, hinteger.mono h₃.toReached h₃.isOpen⟩
      rw [slotType_of_getElem? hx₃, ← Option.some.inj (ht.symm.trans hxt)] at hslot'
      injection hslot' with _ hn'
      exact hn' ▸ hguards
    refine (ensures_loadElement (hready₂.straight h₃).toLive haccess ht' _).bind
      fun w s₄ ⟨h₄, hw⟩ => .pure (.straight (h₁.trans hopen h₂₃) h₃.isOpen h₄ ?_)
    rintro _ ⟨⟩
    exact hw

theorem getElem?_of_forall₂ {ts : List ValueType}
    (h : List.Forall₂ (fun type t => c.valueType? type = some t) types ts) {k : Nat} (hk : types[k]? = some type)
    (ht : c.valueType? type = some t) :
  ts[k]? = some t
  := by
  induction h generalizing k with
  | nil => simp at hk
  | cons hfirst _ ih =>
    cases k with
    | zero =>
      obtain rfl : _ = type := by simpa using hk
      simpa using hfirst.symm.trans ht
    | succ k => simpa using ih (by simpa using hk)

theorem lowers_element_tuple {index : Expr} {i : Int}
    (htarget : Lowers c result scope (.tuple types) scope' leaves (expr .operand target))
    (htype : c.checked.type? target.id = some (.tuple types)) (hindex : index.intLiteral? = some i)
    (helement : types[i.toNat]? = some type) (hid : c.checked.type? id = some type) :
  Lowers c result scope type scope' false (form place id span (.element target index))
  := by
  intro passed s h
  simp only [form]
  refine .bind_typeOf htype fun t ht => ?_
  obtain ⟨ts, rfl, hts⟩ := valueType?_tuple ht
  refine htarget.operand h (fun v passed₁ s₁ h₁ hready₁ hv => ?_)
    fun passed₁ s₁ h₁ hclosed => .pure (.lost h₁ hclosed)
  rw [tuplePosition, hindex]
  dsimp only
  split
  · refine .bind_typeOf hid fun t ht' => ?_
    obtain ⟨⟨t', ht'', hv⟩, hdefined⟩ := hv
    obtain rfl := Option.some.inj (ht''.symm.trans ht)
    refine ensures_value h₁ hready₁.isOpen ht' (ensures_define hready₁.toLive
      (by simpa [Instr.uses] using hdefined) (fun _ => rfl) (by simp [Instr.access?])
      fun _ g dst hg hdst => ?_)
    refine bind_eq_ok.mpr ⟨_, Verify.varType_eq_ok.mpr (hg.getElem?_varTypes hv), ?_⟩
    dsimp only
    rw [getElem?_of_forall₂ hts helement ht']
    exact Verify.expect_eq_ok.mpr hdst
  · exact .bind .fail fun _ _ => False.elim

theorem lowers_length (htarget : Lowers c result scope (.array element length) scope' leaves (expr .operand target))
    (htype : c.checked.type? target.id = some (.array element length))
    (hname : ∀ n, target.shape = .name n → scope' = scope) (hid : c.checked.type? id = some .int) :
  Lowers c result scope .int scope' false (form place id span (.length target))
  := by
  intro passed s h
  -- the number is the same whether the array has been computed or not
  have hvalue : ∀ n passed₁ s₁, Reached c result scope' passed s passed₁ s₁ →
      s₁.Ready c result passed₁ scope' → Ensures c s₁ (do
        if twoPow 63 ≤ n then fail span .lengthRange
        return some (← define (← typeOf id span) (some span) (.set · (.const (.int (n : Nat))))))
      fun value s' => Gives c result scope' .int false passed s value s' := by
    intro n passed₁ s₁ h₁ hready₁
    dsimp only
    split
    · exact .bind .fail fun _ _ => False.elim
    · refine .bind_typeOf hid fun t ht => ?_
      have hfits : (Literal.int n).Fits .int := rfl
      refine (ensures_literal hready₁.toLive hfits ht _).bind fun v s₂ ⟨h₂, hv, _⟩ => .pure ?_
      refine .straight h₁ hready₁.isOpen h₂ ?_
      rintro _ ⟨⟩
      exact hv
  simp only [form]
  refine .bind_arrayLength htype fun t n _ => ?_
  obtain ⟨tid, tspan, shape⟩ := target
  cases shape
  case name m =>
    obtain rfl := hname m rfl
    exact hvalue n passed s (Live.reached h.toLive) h
  all_goals
    exact htarget.operand h (fun v passed₁ s₁ h₁ hready₁ _ => hvalue n passed₁ s₁ h₁ hready₁)
      fun passed₁ s₁ h₁ hclosed => .pure (.lost h₁ hclosed)

/-! ## Assignments to elements -/

/-- An action lowers the indices on the way to an array. -/
def LowersRows (c : LowerContext) (result : Ty) (scope : TypeScope) (root : Ty) (target : Expr)
    (type : Ty) (scope' : TypeScope) : Prop :=
  ∀ passed s, s.Ready c result passed scope → Ensures c s (rowIndices target) fun indices s' =>
    ∃ passed', Reached c result scope' passed s passed' s'
      ∧ (∀ vs, indices = some vs → s'.isOpen = true
        ∧ target.accessPath.reverse.tail.length = vs.length
        ∧ IsPath c passed' s' type root (target.accessPath.reverse.tail.zip vs))
      ∧ (indices = none → s'.isOpen = false)

theorem lowersRows_name :
  LowersRows c result scope type (.node id span (.name n)) type scope
  := by
  intro passed s h
  simp only [rowIndices]
  refine .pure ⟨passed, Live.reached h.toLive, ?_, by simp⟩
  rintro _ ⟨⟩
  exact ⟨h.isOpen, by simp [Expr.accessPath], by simp [Expr.accessPath, IsPath]⟩

theorem accessPath_ne_nil (e : Expr) :
  e.accessPath ≠ []
  := by
  unfold Expr.accessPath
  split <;> simp

theorem tail_reverse_accessPath (id : Nat) (span : Span) (target index : Expr) :
  (Expr.node id span (.element target index)).accessPath.reverse.tail
    = target.accessPath.reverse.tail ++ [.node id span (.element target index)]
  := by
  rw [Expr.accessPath, List.reverse_cons, List.tail_append_of_ne_nil]
  simpa using accessPath_ne_nil target

theorem lowersRows_element {index : Expr}
    (htarget : LowersRows c result scope root target (.array type length) middle)
    (htype : c.checked.type? target.id = some (.array type length))
    (hindex : LowersIndex c result middle index scope') (hbounds : c.checked.Bounds id index length)
    (hid : c.checked.type? id = some type) :
  LowersRows c result scope root (.node id span (.element target index)) type scope'
  := by
  intro passed s h
  simp only [rowIndices]
  refine (htarget passed s h).bind fun indices s₁ ⟨passed₁, h₁, hindices, hnone⟩ => ?_
  cases indices with
  | none =>
    have hclosed := hnone rfl
    refine .pure ⟨passed₁, ⟨h₁.grown, h₁.sound, ?_, ?_⟩, by simp, fun _ => hclosed⟩ <;> simp [hclosed]
  | some vs =>
    obtain ⟨hopen, hlength, hpath⟩ := hindices vs rfl
    have hready₁ := h.after h₁ hopen
    refine hindex.operand hready₁ type hbounds (fun v passed₂ s₂ h₂ hready₂ hinteger hrange => ?_)
      fun passed₂ s₂ h₂ hclosed => .pure ⟨passed₂, h₁.trans hopen h₂, by simp, fun _ => hclosed⟩
    refine .bind_arrayLength htype fun t n ht => ?_
    refine (ensures_boundsCheck hready₂.toLive hinteger (hrange t n ht)).bind
      fun _ s₃ ⟨h₃, hguards⟩ => .pure ?_
    have h₂₃ := h₂.trans hready₂.isOpen h₃.toReached
    refine ⟨passed₂, h₁.trans hopen h₂₃, ?_, by simp⟩
    rintro _ ⟨⟩
    rw [tail_reverse_accessPath]
    refine ⟨h₃.isOpen, by rw [List.length_append, List.length_append, hlength]; rfl, ?_⟩
    rw [List.zip_append hlength, List.zip_cons_cons, List.zip_nil_left]
    refine (hpath.mono h₂₃ h₃.isOpen).append (hinteger.mono h₃.toReached h₃.isOpen) hid ?_
    intro t' n' ht'
    injection Option.some.inj (ht.symm.trans ht') with _ hn
    exact hn ▸ hguards

theorem lowers_assignElement {index : Expr} {middle' : TypeScope}
    (hroot : ∀ n x, (target.accessPath.reverse.headD target).shape = .name n → scope.lookup n = some x →
      x.type = root ∧ LowersRows c result scope root target (.array element length) middle)
    (htype : c.checked.type? target.id = some (.array element length))
    (hindex : LowersIndex c result middle index middle') (hbounds : c.checked.Bounds id index length)
    (hvalue : Lowers c result middle' element scope' leaves (expr .operand value)) :
  Lowers c result scope type scope' false (form place id span (.assignElement target index value))
  := by
  intro passed s h
  simp only [form]
  split
  · next n hname =>
    refine .bind_slot? (.bind_required fun slot hslot => ?_)
    rcases h.binds.lookup n with ⟨hnone, -⟩ | ⟨slot', t, x, hslot', hlookup, hx, hxt⟩
    · simp [hslot] at hnone
    obtain rfl := Option.some.inj (hslot.symm.trans hslot')
    obtain ⟨rfl, hrows⟩ := hroot n t hname hlookup
    refine (hrows passed s h).bind fun indices s₁ ⟨passed₁, h₁, hindices, hnone⟩ => ?_
    cases indices with
    | none => exact .pure (.lost h₁ (hnone rfl))
    | some vs =>
      obtain ⟨hopen, hlength, hpath⟩ := hindices vs rfl
      have hready₁ := h.after h₁ hopen
      refine hindex.operand hready₁ element hbounds (fun v passed₂ s₂ h₂ hready₂ hinteger hrange => ?_)
        fun passed₂ s₂ h₂ hclosed => .pure (.lost (h₁.trans hopen h₂) hclosed)
      refine .bind_arrayLength htype fun vt m hvt => ?_
      refine (ensures_boundsCheck hready₂.toLive hinteger (hrange vt m hvt)).bind fun _ s₃ ⟨h₃, hguards⟩ => ?_
      have hready₃ := hready₂.straight h₃
      have h₂₃ := h₂.trans hready₂.isOpen h₃.toReached
      have h₀₃ := h₁.trans hopen h₂₃
      refine hvalue.operand hready₃ (fun w passed₄ s₄ h₄ hready₄ hw => ?_)
        fun passed₄ s₄ h₄ hclosed => .pure (.lost (h₀₃.trans h₃.isOpen h₄) hclosed)
      have h₁₄ := h₂₃.trans h₃.isOpen h₄
      refine (ensures_assignElement hready₄.toLive
        ((h₁.grown.widens.trans h₁₄.grown.widens).getElem?_slots hx) hxt hlength
        (hpath.mono h₁₄ hready₄.isOpen)
        ((hinteger.mono h₃.toReached h₃.isOpen).mono h₄ hready₄.isOpen) ?_ hw).bind
          fun _ s₅ h₅ => .pure (.statement (h₁.trans hopen (h₁₄.trans hready₄.isOpen h₅.toReached)) (by simp))
      intro t' n' ht'
      injection Option.some.inj (hvt.symm.trans ht') with _ hn
      exact hn ▸ hguards.mono h₄ hready₄.isOpen
  · exact .fail

end

end Lower

end FormCompiler
