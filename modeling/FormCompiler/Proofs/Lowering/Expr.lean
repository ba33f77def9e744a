import FormCompiler.Proofs.Lowering.Jumps

/-!
# Lowering of typed expressions

Lowering an expression that has a type keeps everything true that construction has to keep true, and
the value has the type (`lowers_expr`). The proof goes along the expression and takes the lemma of each
form.
-/

namespace FormCompiler

open FormCompiler.Flow

namespace Lower

open LowerState

section

variable {c : LowerContext} {result type : Ty} {scope scope' : TypeScope} {passed passed' : Passed}
  {s s' : LowerState} {place : Place} {id : Nat} {span : Span} {leaves : Bool}
variable {inner middle : TypeScope}

/-! ## Allocations, resources and the runtime -/

theorem lowers_alloc {size : Expr} {t : Ty}
    (hsize : Lowers c result scope t scope' leaves (expr .operand size)) (ht : t.isInteger = true) :
  Lowers c result scope .ptr scope' false (form place id span (.alloc size))
  := by
  intro passed s h
  simp only [form]
  refine hsize.operand h (fun v passed₁ s₁ h₁ hready₁ hv => ?_)
    fun passed₁ s₁ h₁ hclosed => .pure (.lost h₁ hclosed)
  have hptr : c.valueType? .ptr = some .ptr := rfl
  obtain ⟨⟨vt, hvt, hv⟩, hdefined⟩ := hv
  refine (ensures_define hready₁.toLive (by simpa [Instr.uses] using hdefined) (fun _ => rfl)
    (by simp [Instr.access?]) fun _ g dst hg hdst => ?_).bind ?_
  · refine bind_eq_ok.mpr ⟨(), Verify.expectThat_eq_ok.mpr ⟨vt, hg.getElem?_varTypes hv, ?_⟩,
      Verify.expect_eq_ok.mpr hdst⟩
    exact isInt_of_isInteger ht hvt
  rintro pointer s₂ ⟨h₂, hpointer, hdefined₂, -⟩
  have hready₂ := hready₁.straight h₂
  have h₁₂ := h₁.trans hready₁.isOpen h₂.toReached
  split
  · refine (ensures_spill hready₂.toLive hpointer hdefined₂ none).bind ?_
    rintro slot s₃ ⟨h₃, hslot⟩
    have h₁₃ := h₁₂.trans h₂.isOpen h₃.toReached
    refine (ensures_releaseAtExit (hready₂.straight h₃) hslot span none).bind ?_
    rintro _ s₄ ⟨h₄, -⟩
    exact .pure (.statement (h₁₃.trans h₃.isOpen h₄) (by simp))
  · refine .pure ⟨passed₁, h₁₂, ?_, by simp⟩
    rintro _ ⟨⟩
    exact ⟨h₂.isOpen, ⟨.ptr, hptr, hpointer⟩, hdefined₂⟩

theorem lowers_free {pointer : Expr}
    (hpointer : Lowers c result scope .ptr scope' leaves (expr .operand pointer)) :
  Lowers c result scope type scope' false (form place id span (.free pointer))
  := by
  intro passed s h
  simp only [form]
  refine hpointer.operand h (fun v passed₁ s₁ h₁ hready₁ hv => ?_)
    fun passed₁ s₁ h₁ hclosed => .pure (.lost h₁ hclosed)
  obtain ⟨⟨vt, hvt, hv⟩, hdefined⟩ := hv
  obtain rfl := valueType?_ptr hvt
  refine (ensures_emit hready₁.toLive (by simpa [Instr.uses] using hdefined) (by simp [Instr.def?])
    (by simp [Instr.access?]) fun _ => ?_).bind ?_
  · exact Verify.expect_eq_ok.mpr hv
  rintro _ s₂ ⟨h₂, -⟩
  exact .pure (.statement (h₁.trans hready₁.isOpen h₂.toReached) (by simp))

theorem lowers_atomic {body : List Expr} (hbody : Lowers c result scope type inner leaves (statements body)) :
  Lowers c result scope type scope false (form place id span (.atomic body))
  := by
  intro passed s h
  simp only [form]
  refine ((ensures_runtimeCall h.toLive .atomicBegin (by simp) _).mono fun _ s₁ ⟨h₁, _⟩ => h₁).discard.bind
    fun _ s₁ h₁ => ?_
  have hready₁ := h.straight h₁
  have hinner : Lowers c result scope type inner leaves (do
      owe .endAtomic
      statements body) := by
    intro passed' s' h'
    refine (ensures_owe h' (by simp [CanLeave])).bind fun _ s₂ ⟨h₂, hopen, _⟩ => ?_
    refine (hbody passed' s₂ (h'.after h₂ hopen)).mono fun value s₃ ⟨passed₃, h₃, hvalue, hleaves⟩ => ?_
    exact ⟨passed₃, h₂.trans hopen h₃, hvalue, hleaves⟩
  refine (hinner.inScope passed s₁ hready₁).mono fun value s₂ ⟨⟨passed₂, h₂, hvalue, _⟩, _⟩ => ?_
  exact ⟨passed₂, h₁.toReached.trans h₁.isOpen h₂, hvalue, by simp⟩

/-- An action acquires resources. -/
def LowersResources (c : LowerContext) (result : Ty) (scope : TypeScope) (scope' : TypeScope)
    (action : Lower Bool) : Prop :=
  ∀ passed s, s.Ready c result passed scope → Ensures c s action fun ok s' =>
    ∃ passed', Reached c result scope' passed s passed' s' ∧ s'.isOpen = ok

theorem lowersResources_nil :
  LowersResources c result scope scope (resources [])
  := by
  intro passed s h
  simp only [resources]
  exact .pure ⟨passed, Live.reached h.toLive, h.isOpen⟩

theorem lowersResources_cons {name : String} {init : Expr} {rest : List (Resource Expr)}
    (hinit : Lowers c result scope .ptr middle leaves (expr .operand init))
    (hrest : LowersResources c result ((name, ⟨.ptr, false⟩) :: middle) scope' (resources rest)) :
  LowersResources c result scope scope' (resources (⟨name, init, span⟩ :: rest))
  := by
  intro passed s h
  simp only [resources]
  refine hinit.operand h (fun v passed₁ s₁ h₁ hready₁ hv => ?_) fun passed₁ s₁ h₁ hclosed => .pure ?_
  · have hptr : c.valueType? .ptr = some .ptr := rfl
    refine (ensures_bindValue hready₁ ⟨.ptr, false⟩ hptr hv name span).bind fun slot s₂ ⟨h₂, hopen₂, hslot⟩ => ?_
    have hready₂ := hready₁.after h₂ hopen₂
    refine (ensures_owe hready₂ fun k hk => ?_).bind fun _ s₃ ⟨h₃, hopen₃, _⟩ => ?_
    · obtain rfl : k = slot := by simpa using hk
      exact hslot
    refine (hrest passed₁ s₃ (hready₂.after h₃ hopen₃)).mono fun ok s₄ ⟨passed₄, h₄, hok⟩ => ?_
    exact ⟨passed₄, ((h₁.trans hready₁.isOpen h₂).trans hopen₂ h₃).trans hopen₃ h₄, hok⟩
  · exact ⟨passed₁, ⟨h₁.grown, h₁.sound, by simp [hclosed], by simp [hclosed]⟩, hclosed⟩

theorem lowers_withResources {items : List (Resource Expr)} {body : List Expr}
    (hitems : LowersResources c result scope middle (resources items))
    (hbody : Lowers c result middle type inner leaves (statements body)) :
  Lowers c result scope type scope false (form place id span (.withResources items body))
  := by
  have hinner : Lowers c result scope type inner false (do
      if ← resources items then statements body else return none) := by
    intro passed s h
    refine (hitems passed s h).bind fun ok s₁ ⟨passed₁, h₁, hok⟩ => ?_
    cases ok with
    | true =>
      refine (hbody passed₁ s₁ (h.after h₁ hok)).mono fun value s₂ ⟨passed₂, h₂, hvalue, _⟩ => ?_
      exact ⟨passed₂, h₁.trans hok h₂, hvalue, by simp⟩
    | false => exact .pure (.lost h₁ hok)
  intro passed s h
  simp only [form]
  exact hinner.inScope.lowers passed s h

theorem lowers_mutex_create :
  Lowers c result scope .ptr scope false (form place id span (.mutex .create none))
  := by
  intro passed s h
  simp only [form]
  refine (ensures_runtimeCall h.toLive _ (by simp) _).mono fun value s' ⟨h', hvalue⟩ => ?_
  refine .straight (Live.reached h.toLive) h.isOpen h' fun v hv => ?_
  obtain ⟨htype, hdefined⟩ := hvalue v hv
  exact ⟨⟨.ptr, rfl, htype⟩, hdefined⟩

theorem runtimeCall_isNone {f : RuntimeFunction} (hf : f.symbol.result = .none) {args : List VarId}
    {span : Option Span} :
  Ensures c s (runtimeCall f args span) fun value _ => value = none
  := by
  refine Ensures.bind (m := fun _ _ => True) (fun _ _ _ => trivial) fun _ s₁ _ => ?_
  rw [hf]
  exact .bind (fun _ _ _ => trivial) fun _ _ (_ : True) => .pure rfl

theorem lowers_mutex {op : MutexOp} (hop : op ≠ .create) {handle : Expr}
    (hhandle : Lowers c result scope .ptr scope' leaves (expr .operand handle)) :
  Lowers c result scope type scope' false (form place id span (.mutex op (some handle)))
  := by
  have hresult : (RuntimeFunction.mutex op).symbol.result = .none := by
    cases op <;> first | exact absurd rfl hop | rfl
  intro passed s h
  simp only [form]
  refine hhandle.operand h (fun v passed₁ s₁ h₁ hready₁ hv => ?_)
    fun passed₁ s₁ h₁ hclosed => .pure (.lost h₁ hclosed)
  refine ((ensures_runtimeCall hready₁.toLive _ (by simpa using hv.defined) _).and
    (runtimeCall_isNone hresult)).mono ?_
  rintro value s₂ ⟨⟨h₂, -⟩, rfl⟩
  exact .statement (h₁.trans hready₁.isOpen h₂.toReached) (by simp)

/-! ## Expressions -/

theorem ptr_of_isAlloc {e : Expr} (h : HasType c.checked result scope e type scope')
    (halloc : e.isAlloc = true) :
  type = .ptr
  := by
  obtain ⟨id, span, shape⟩ := e
  cases shape <;> simp [Expr.isAlloc, Expr.shape] at halloc
  simp only [HasType, FormHasType] at h
  exact h.2.1

theorem headD_reverse_accessPath (id : Nat) (span : Span) (target index e : Expr) :
  (Expr.node id span (.element target index)).accessPath.reverse.headD e
    = target.accessPath.reverse.headD target
  := by
  rw [Expr.accessPath, List.reverse_cons]
  cases hpath : target.accessPath.reverse with
  | nil => exact absurd (List.reverse_eq_nil_iff.mp hpath) (accessPath_ne_nil target)
  | cons first rest => rfl

mutual

/-- Lowering a typed expression gives a value of the type. -/
theorem lowers_expr (place : Place) : ∀ (e : Expr) {scope : TypeScope} {type : Ty} {scope' : TypeScope},
    HasType c.checked result scope e type scope' →
      Lowers c result scope type scope' e.diverges (expr place e)
  | .node id span shape, scope, type, scope', h => by
    simp only [HasType] at h
    intro passed s hready
    simp only [expr]
    refine .bind_isOpen ?_
    rw [if_pos hready.isOpen]
    rw [Expr.diverges]
    exact lowers_form place id span shape h.1 h.2 passed s hready

/-- Lowering a typed form gives a value of the type. -/
theorem lowers_form (place : Place) (id : Nat) (span : Span) : ∀ (shape : Shape Expr)
    {scope : TypeScope} {type : Ty} {scope' : TypeScope}, c.checked.type? id = some type →
      FormHasType c.checked result scope id shape type scope' →
      Lowers c result scope type scope' (shapeDiverges shape) (form place id span shape)
  | .literal value, scope, type, scope', hid, h => by
    simp only [FormHasType] at h
    obtain ⟨hfits, rfl⟩ := h
    exact lowers_literal hid hfits
  | .name n, scope, type, scope', hid, h => by
    simp only [FormHasType] at h
    obtain ⟨hname, -, rfl⟩ := h
    exact lowers_name hid hname
  | .call callee args, scope, type, scope', hid, h => by
    simp only [FormHasType] at h
    obtain ⟨types, -, hargs⟩ := h
    exact lowers_call (lowers_operands args hargs) hid
  | .binary op lhs rhs, scope, type, scope', hid, h => by
    simp only [FormHasType] at h
    obtain ⟨operand, middle, hlhs, hrhs, hop, rfl⟩ := h
    exact lowers_binary (lowers_expr _ lhs hlhs) (lowers_expr _ rhs hrhs) hop hid
  | .unary op operand, scope, type, scope', hid, h => by
    simp only [FormHasType] at h
    exact lowers_unary (lowers_expr _ operand h.1) h.2 hid
  | .declare isMutable name written init, scope, type, scope', hid, h => by
    simp only [FormHasType] at h
    obtain ⟨t, middle, hinit, rfl, -⟩ := h
    exact lowers_declare (lowers_expr _ init hinit) hinit.type?
      (ptr_of_isAlloc hinit)
  | .assign name value, scope, type, scope', hid, h => by
    simp only [FormHasType] at h
    obtain ⟨t, hname, hvalue⟩ := h
    exact lowers_assign hname (lowers_expr _ value hvalue)
  | .assignElement target index value, scope, type, scope', hid, h => by
    simp only [FormHasType] at h
    obtain ⟨htuples, element, length, i, middle, middle', htarget, hindex, hi, hbounds, hvalue⟩ := h
    obtain ⟨root, hroot⟩ := lowers_rows target htarget htuples
    exact lowers_assignElement hroot htarget.type?
      ((lowers_expr _ index hindex).index hindex hi) hbounds (lowers_expr _ value hvalue)
  | .scope body, scope, type, scope', hid, h => by
    simp only [FormHasType] at h
    obtain ⟨rfl, inner, hbody⟩ := h
    intro passed s hready
    simp only [form]
    exact (lowers_statements body hbody).inScope.lowers passed s hready
  | .cond isCheck test thenBranch none, scope, type, scope', hid, h => by
    simp only [FormHasType] at h
    obtain ⟨htest, t, inner, hthen⟩ := h
    rw [show shapeDiverges (.cond isCheck test thenBranch none) = (thenBranch.diverges && false) by
      simp [shapeDiverges]]
    exact lowers_cond (lowers_expr _ test htest) (lowers_expr _ thenBranch hthen)
      (lowersInScope_branch_none type) (by simp)
  | .cond isCheck test thenBranch (some elseBranch), scope, type, scope', hid, h => by
    simp only [FormHasType] at h
    obtain ⟨htest, ⟨t, inner, hthen, hthenType⟩, t', inner', helse, helseType⟩ := h
    have hbranch : LowersInScope c result scope' t' elseBranch.diverges (branch (some elseBranch)) := by
      intro passed s hready
      simp only [branch]
      exact (lowers_expr _ elseBranch helse).inScope passed s hready
    rw [shapeDiverges]
    exact lowers_cond (lowers_expr _ test htest) (lowers_expr _ thenBranch hthen) hbranch
      fun _ => ⟨hid, hthenType, helseType⟩
  | .whileLoop isAsync test body, scope, type, scope', hid, h => by
    simp only [FormHasType] at h
    obtain ⟨htest, t, inner, hbody⟩ := h
    exact lowers_whileLoop (lowers_expr _ test htest) (lowers_statements body hbody)
  | .forLoop init test step body, scope, type, scope', hid, h => by
    simp only [FormHasType] at h
    obtain ⟨rfl, t, middle, inner, hinit, htest, ⟨t', inner', hbody⟩, t'', inner'', hstep⟩ := h
    exact lowers_forLoop (lowers_expr _ init hinit) (lowers_expr _ test htest)
      (lowers_statements body hbody) (lowers_expr _ step hstep)
  | .loop body, scope, type, scope', hid, h => by
    simp only [FormHasType] at h
    obtain ⟨rfl, t, inner, hbody⟩ := h
    exact lowers_loop (lowers_statements body hbody)
  | .breakLoop, scope, type, scope', hid, h => by
    simp only [FormHasType] at h
    obtain rfl := h
    intro passed s hready
    simp only [form]
    exact lowers_jumpInLoop (fun _ => .inr rfl) passed s hready
  | .continueLoop, scope, type, scope', hid, h => by
    simp only [FormHasType] at h
    obtain rfl := h
    intro passed s hready
    simp only [form]
    exact lowers_jumpInLoop (fun _ => .inl rfl) passed s hready
  | .ret none, scope, type, scope', hid, h => by
    simp only [FormHasType] at h
    obtain rfl := h
    exact lowers_ret_none
  | .ret (some value), scope, type, scope', hid, h => by
    simp only [FormHasType] at h
    exact lowers_ret_some (lowers_expr _ value h)
  | .element (.node tid tspan tshape) index, scope, type, scope', hid, h => by
    simp only [FormHasType] at h
    obtain ⟨length, i, middle, htarget, hindex, hi, hbounds⟩ | ⟨types, i, t, htarget, -, hi, -, htype⟩ := h
    · have htarget' := htarget
      simp only [HasType] at htarget'
      have hslot := lowersSlot (lowers_form .operand tid tspan tshape htarget'.1 htarget'.2)
        fun n hname => htarget.name hname
      exact lowers_element_array hslot htarget.type? ((lowers_expr _ index hindex).index hindex hi)
        hbounds hid
    · exact lowers_element_tuple (lowers_expr _ (.node tid tspan tshape) htarget) htarget.type? hi htype hid
  | .array items, scope, type, scope', hid, h => by
    simp only [FormHasType] at h
    obtain ⟨element, rfl, hitems⟩ := h
    exact lowers_array (lowers_operands items hitems) hid
  | .tuple items, scope, type, scope', hid, h => by
    simp only [FormHasType] at h
    obtain ⟨types, rfl, hitems⟩ := h
    exact lowers_tuple (lowers_operands items hitems) hid
  | .length target, scope, type, scope', hid, h => by
    simp only [FormHasType] at h
    obtain ⟨rfl, element, length, htarget⟩ := h
    exact lowers_length (lowers_expr _ target htarget) htarget.type?
      (fun n hname => (htarget.name hname).2) hid
  | .alloc size, scope, type, scope', hid, h => by
    simp only [FormHasType] at h
    obtain ⟨rfl, t, hsize, ht⟩ := h
    exact lowers_alloc (lowers_expr _ size hsize) ht
  | .free pointer, scope, type, scope', hid, h => by
    simp only [FormHasType] at h
    exact lowers_free (lowers_expr _ pointer h)
  | .withResources items body, scope, type, scope', hid, h => by
    simp only [FormHasType] at h
    obtain ⟨rfl, middle, inner, hitems, hbody⟩ := h
    exact lowers_withResources (lowers_resources items hitems) (lowers_statements body hbody)
  | .atomic body, scope, type, scope', hid, h => by
    simp only [FormHasType] at h
    obtain ⟨rfl, inner, hbody⟩ := h
    exact lowers_atomic (lowers_statements body hbody)
  | .mutex op none, scope, type, scope', hid, h => by
    simp only [FormHasType] at h
    obtain ⟨rfl, rfl, rfl⟩ := h
    exact lowers_mutex_create
  | .mutex op (some handle), scope, type, scope', hid, h => by
    simp only [FormHasType] at h
    exact lowers_mutex h.1 (lowers_expr _ handle h.2)

/-- Lowering the indices on the way to a typed array, which starts at a name. -/
theorem lowers_rows : ∀ (target : Expr) {scope : TypeScope} {type : Ty} {scope' : TypeScope},
    HasType c.checked result scope target type scope' →
      (∀ e ∈ target.accessPath, ∀ types, c.checked.type? e.id ≠ some (.tuple types)) →
      ∃ root, ∀ n x, (target.accessPath.reverse.headD target).shape = .name n →
        scope.lookup n = some x → x.type = root ∧ LowersRows c result scope root target type scope'
  | .node id span shape, scope, type, scope', h, htuples => by
    cases shape with
    | element target index =>
      have hid := h.type?
      simp only [HasType, FormHasType] at h
      rw [Expr.accessPath, List.forall_mem_cons] at htuples
      obtain ⟨-, ⟨length, i, middle, htarget, hindex, hi, hbounds⟩ | ⟨types, i, t, htarget, -⟩⟩ := h
      · obtain ⟨root, hroot⟩ := lowers_rows target htarget htuples.2
        refine ⟨root, fun n t hname hlookup => ?_⟩
        rw [headD_reverse_accessPath] at hname
        obtain ⟨rfl, hrows⟩ := hroot n t hname hlookup
        exact ⟨rfl, lowersRows_element hrows htarget.type? ((lowers_expr _ index hindex).index hindex hi)
          hbounds hid⟩
      · exact absurd htarget.type? (htuples.2 target target.mem_accessPath types)
    | name n' =>
      refine ⟨type, fun n t hname hlookup => ?_⟩
      obtain rfl : n' = n := by simpa [Expr.accessPath, Expr.shape] using hname
      obtain ⟨hscope, rfl⟩ := h.name rfl
      exact ⟨hscope t hlookup, lowersRows_name⟩
    | _ =>
      exact ⟨.none, fun n t hname => by simp [Expr.accessPath, Expr.shape] at hname⟩

/-- Lowering a typed body gives a value of the type of its last form. -/
theorem lowers_statements : ∀ (body : List Expr) {scope : TypeScope} {type : Ty} {scope' : TypeScope},
    BodyHasType c.checked result scope body type scope' →
      Lowers c result scope type scope' (lastDiverges body) (statements body)
  | [], scope, type, scope', h => by
    simp only [BodyHasType] at h
    obtain rfl := h
    exact lowers_statements_nil
  | e :: rest, scope, type, scope', h => by
    simp only [BodyHasType] at h
    obtain ⟨t, middle, he, hrest⟩ := h
    refine lowers_statements_cons (lowers_expr _ e he) (fun hempty => ?_) fun hempty => ?_
    · rw [if_pos hempty] at hrest
      exact ⟨hrest.1, hrest.2, by simp [lastDiverges, hempty]⟩
    · rw [if_neg (by simpa using hempty)] at hrest
      have hlast : lastDiverges (e :: rest) = lastDiverges rest := by simp [lastDiverges, hempty]
      rw [hlast]
      exact lowers_statements rest hrest

/-- Lowering typed operands gives values of their types. -/
theorem lowers_operands : ∀ (items : List Expr) {scope : TypeScope} {types : List Ty}
    {scope' : TypeScope}, HaveTypes c.checked result scope items types scope' →
      LowersAll c result scope types scope' (operands items)
  | [], scope, types, scope', h => by
    simp only [HaveTypes] at h
    obtain ⟨rfl, rfl⟩ := h
    exact lowersAll_nil
  | e :: rest, scope, types, scope', h => by
    simp only [HaveTypes] at h
    obtain ⟨t, types', middle, rfl, he, hrest⟩ := h
    exact lowersAll_cons (lowers_expr _ e he) (lowers_operands rest hrest)

/-- Lowering typed resources. -/
theorem lowers_resources : ∀ (items : List (Resource Expr)) {scope scope' : TypeScope},
    ResourcesHaveType c.checked result scope items scope' →
      LowersResources c result scope scope' (resources items)
  | [], scope, scope', h => by
    simp only [ResourcesHaveType] at h
    obtain rfl := h
    exact lowersResources_nil
  | ⟨name, init, span⟩ :: rest, scope, scope', h => by
    simp only [ResourcesHaveType] at h
    obtain ⟨middle, hinit, hrest⟩ := h
    exact lowersResources_cons (lowers_expr _ init hinit) (lowers_resources rest hrest)

end

end

end Lower

end FormCompiler
