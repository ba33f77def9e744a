import FormCompiler.Typing.Module
import Mathlib.Data.List.Basic

/-!
# Typed expressions

`HasType` says that the types that have been recorded for an expression and for all parts of it fit
together: what an expression needs of its parts for instructions to be made of it. The scopes before
and after an expression hold the names that can be used there, with their types and whether they can be
assigned to. A form in a scope of its own leaves no names behind.

The relation says nothing of how types are found. The checker may give a literal another type after it
has been checked; what counts are the types in the end.
-/

namespace FormCompiler

variable {sig sig' : FunctionSig} {parts : List Expr} {checked checked' : CheckedModule}

/-- What is known of a local. -/
structure Local where
  type : Ty
  isMutable : Bool

/-- The names in scope and what is known of them, the latest first. -/
abbrev TypeScope := List (String × Local)

/-- Parameters as locals, which can be assigned to. -/
def TypeScope.ofParams (params : List (String × Ty)) : TypeScope :=
  params.reverse.map fun param => (param.1, ⟨param.2, true⟩)

/-- The scope in which the body of a function starts. -/
def FunctionSig.scope (sig : FunctionSig) : TypeScope := .ofParams sig.params

/-- A literal can be of a type. -/
def Literal.Fits (type : Ty) : Literal → Prop
  | .int n => type.fitsLiteral n = true
  | .frac _ => type.isFraction = true
  | .bool _ => type = .bool
  | .str _ => type = .str

theorem Ty.isInteger_of_fitsLiteral {type : Ty} {n : Int} (h : type.fitsLiteral n = true) :
  type.isInteger = true
  := by cases type <;> simp_all [Ty.fitsLiteral, Ty.isInteger]

/-- A unary operator takes operands of a type. -/
def UnaryOp.Takes (type : Ty) : UnaryOp → Prop
  | .neg => type.isNumeric = true
  | .not => type = .bool
  | .bitNot => type.isInteger = true

/-- An index is compared with the length when the access runs, or is a literal that is in range. -/
def CheckedModule.Bounds (checked : CheckedModule) (id : Nat) (index : Expr) (length : ArrayLength) :
    Prop :=
  checked.isDynamicIndex id = true
    ∨ ∃ i n, index.intLiteral? = some i ∧ length = .fixed n ∧ 0 ≤ i ∧ i < n

/--
A call takes arguments of the parameter types of the callee and is of its result type, both with the
variables of a generic callee replaced by what is recorded for the call.
-/
def CheckedModule.Calls (checked : CheckedModule) (id : Nat) (callee : String) (types : List Ty)
    (type : Ty) : Prop :=
  ∃ sig result σ, checked.signature? callee = some sig ∧ sig.result = some result
    ∧ types = sig.paramTypes.map σ.apply
    ∧ type = (if sig.isGeneric then σ.apply result else result)
    ∧ (sig.isGeneric = true → (id, ⟨callee, σ⟩) ∈ checked.instantiations)

mutual

/-- An expression has a type in a scope, and leaves a scope behind. -/
def HasType (checked : CheckedModule) (result : Ty) (scope : TypeScope) :
    Expr → Ty → TypeScope → Prop
  | .node id _ shape, type, scope' =>
    checked.type? id = some type ∧ FormHasType checked result scope id shape type scope'

/-- A form has a type in a scope, and leaves a scope behind. -/
def FormHasType (checked : CheckedModule) (result : Ty) (scope : TypeScope) (id : Nat) :
    Shape Expr → Ty → TypeScope → Prop
  | .literal value, type, scope' => value.Fits type ∧ scope' = scope
  | .name n, type, scope' =>
    (∀ x, scope.lookup n = some x → x.type = type)
      ∧ (scope.lookup n = none → ∃ g, checked.global? n = some g ∧ g.type = type) ∧ scope' = scope
  | .call callee args, type, scope' =>
    ∃ types, checked.Calls id callee types type ∧ HaveTypes checked result scope args types scope'
  | .binary op lhs rhs, type, scope' =>
    ∃ operand middle, HasType checked result scope lhs operand middle
      ∧ HasType checked result middle rhs operand scope'
      ∧ (Check.operandKind operand op).1 = true
      ∧ type = if op.isComparison then .bool else operand
  | .unary op operand, type, scope' =>
    HasType checked result scope operand type scope' ∧ op.Takes type
  | .declare isMutable name written init, _, scope' =>
    ∃ t middle, HasType checked result scope init t middle ∧ scope' = (name, ⟨t, isMutable⟩) :: middle
      ∧ ∀ w, written = some w → t = w.resolve
  | .assign name value, _, scope' =>
    ∃ t, scope.lookup name = some ⟨t, true⟩ ∧ HasType checked result scope value t scope'
  | .assignElement target index value, _, scope' =>
    (∀ e ∈ target.accessPath, ∀ types, checked.type? e.id ≠ some (.tuple types))
      ∧ ∃ element length i middle middle', HasType checked result scope target (.array element length) middle
        ∧ HasType checked result middle index i middle' ∧ i.isInteger = true
        ∧ checked.Bounds id index length ∧ HasType checked result middle' value element scope'
  | .scope body, type, scope' =>
    scope' = scope ∧ ∃ inner, BodyHasType checked result scope body type inner
  | .cond _ test thenBranch none, _, scope' =>
    HasType checked result scope test .bool scope'
      ∧ ∃ t inner, HasType checked result scope' thenBranch t inner
  | .cond _ test thenBranch (some elseBranch), type, scope' =>
    HasType checked result scope test .bool scope'
      ∧ (∃ t inner, HasType checked result scope' thenBranch t inner
        ∧ (thenBranch.diverges = true ∨ t = type))
      ∧ ∃ t inner, HasType checked result scope' elseBranch t inner
        ∧ (elseBranch.diverges = true ∨ t = type)
  | .whileLoop _ test body, _, scope' =>
    HasType checked result scope test .bool scope'
      ∧ ∃ t inner, BodyHasType checked result scope' body t inner
  | .forLoop init test step body, _, scope' =>
    scope' = scope ∧ ∃ t middle inner, HasType checked result scope init t middle
      ∧ HasType checked result middle test .bool inner
      ∧ (∃ t' inner', BodyHasType checked result inner body t' inner')
      ∧ ∃ t' inner', HasType checked result inner step t' inner'
  | .loop body, _, scope' =>
    scope' = scope ∧ ∃ t inner, BodyHasType checked result scope body t inner
  | .breakLoop, _, scope' | .continueLoop, _, scope' | .ret none, _, scope' => scope' = scope
  | .ret (some value), _, scope' => HasType checked result scope value result scope'
  | .element target index, type, scope' =>
    (∃ length i middle, HasType checked result scope target (.array type length) middle
        ∧ HasType checked result middle index i scope' ∧ i.isInteger = true
        ∧ checked.Bounds id index length)
      ∨ ∃ types i t, HasType checked result scope target (.tuple types) scope'
        ∧ HasType checked result scope' index t scope' ∧ index.intLiteral? = some i ∧ 0 ≤ i
        ∧ types[i.toNat]? = some type
  | .array items, type, scope' =>
    ∃ element, type = .array element (.fixed items.length)
      ∧ HaveTypes checked result scope items (List.replicate items.length element) scope'
  | .tuple items, type, scope' =>
    ∃ types, type = .tuple types ∧ HaveTypes checked result scope items types scope'
  | .length target, type, scope' =>
    type = .int ∧ ∃ element length, HasType checked result scope target (.array element length) scope'
  | .alloc size, type, scope' =>
    type = .ptr ∧ ∃ t, HasType checked result scope size t scope' ∧ t.isInteger = true
  | .free pointer, _, scope' => HasType checked result scope pointer .ptr scope'
  | .withResources resources body, type, scope' =>
    scope' = scope ∧ ∃ middle inner, ResourcesHaveType checked result scope resources middle
      ∧ BodyHasType checked result middle body type inner
  | .atomic body, type, scope' =>
    scope' = scope ∧ ∃ inner, BodyHasType checked result scope body type inner
  | .mutex op none, type, scope' => op = .create ∧ type = .ptr ∧ scope' = scope
  | .mutex op (some handle), _, scope' =>
    op ≠ .create ∧ HasType checked result scope handle .ptr scope'

/-- A body has the type of its last form. -/
def BodyHasType (checked : CheckedModule) (result : Ty) (scope : TypeScope) :
    List Expr → Ty → TypeScope → Prop
  | [], _, scope' => scope' = scope
  | e :: rest, type, scope' =>
    ∃ t middle, HasType checked result scope e t middle
      ∧ if rest.isEmpty then t = type ∧ scope' = middle
        else BodyHasType checked result middle rest type scope'

/-- Expressions have types, each in the scope that the one before leaves behind. -/
def HaveTypes (checked : CheckedModule) (result : Ty) (scope : TypeScope) :
    List Expr → List Ty → TypeScope → Prop
  | [], types, scope' => types = [] ∧ scope' = scope
  | e :: rest, types, scope' =>
    ∃ t types' middle, types = t :: types' ∧ HasType checked result scope e t middle
      ∧ HaveTypes checked result middle rest types' scope'

/-- Resources are pointers. -/
def ResourcesHaveType (checked : CheckedModule) (result : Ty) (scope : TypeScope) :
    List (Resource Expr) → TypeScope → Prop
  | [], scope' => scope' = scope
  | ⟨name, init, _⟩ :: rest, scope' =>
    ∃ middle, HasType checked result scope init .ptr middle
      ∧ ResourcesHaveType checked result ((name, ⟨.ptr, false⟩) :: middle) rest scope'

end

/-- Control does not come out of the last form of a body, or it is a loop without a test. -/
def endsInJump (body : List Expr) : Bool :=
  body.getLast?.any fun e => e.diverges || Check.isLoop e

/-- The body of a function has the type of its result, unless that does not matter. -/
def FunctionHasType (checked : CheckedModule) (sig : FunctionSig) (body : List Expr) : Prop :=
  ∃ result type scope, sig.result = some result
    ∧ BodyHasType checked result sig.scope body type scope
    ∧ (type = result ∨ result = .none ∨ endsInJump body = true)

section

variable {checked : CheckedModule} {result type : Ty} {scope scope' : TypeScope} {e : Expr}

theorem HasType.type? (h : HasType checked result scope e type scope') :
  checked.type? e.id = some type
  := by
  obtain ⟨id, span, shape⟩ := e
  simp only [HasType] at h
  exact h.1

theorem HasType.name (h : HasType checked result scope e type scope') {n : String}
    (hname : e.shape = .name n) :
  (∀ x, scope.lookup n = some x → x.type = type) ∧ scope' = scope
  := by
  obtain ⟨id, span, shape⟩ := e
  obtain rfl : shape = .name n := hname
  simp only [HasType, FormHasType] at h
  exact ⟨h.2.1, h.2.2.2⟩

end

/-! ## Signatures -/

/-- A signature later on: its result type may have been found. -/
structure FunctionSig.Refines (sig sig' : FunctionSig) : Prop where
  name : sig'.name = sig.name
  params : sig'.params = sig.params
  span : sig'.span = sig.span
  typeVars : sig'.typeVars = sig.typeVars
  result : ∀ t, sig.result = some t → sig'.result = some t

theorem FunctionSig.Refines.refl (sig : FunctionSig) :
  sig.Refines sig
  := ⟨rfl, rfl, rfl, rfl, fun _ => id⟩

theorem FunctionSig.Refines.scope (h : sig.Refines sig') :
  sig'.scope = sig.scope
  := congrArg TypeScope.ofParams h.params

theorem FunctionSig.Refines.trans {sig'' : FunctionSig} (h : sig.Refines sig') (h' : sig'.Refines sig'') :
  sig.Refines sig''
  := ⟨h'.name.trans h.name, h'.params.trans h.params, h'.span.trans h.span, h'.typeVars.trans h.typeVars,
    fun t ht => h'.result t (h.result t ht)⟩

/-! ## Other units that know the same -/

/--
One unit knows of some expressions what another one knows. It compares all indices that the other one
compares, and it knows the signatures, generic calls and globals of the other one.
-/
structure CheckedModule.Agrees (parts : List Expr) (checked checked' : CheckedModule) : Prop where
  types : ∀ e ∈ parts, checked'.type? e.id = checked.type? e.id
  dynamic : ∀ id, checked.isDynamicIndex id = true → checked'.isDynamicIndex id = true
  signatures : ∀ name sig, checked.signature? name = some sig →
    ∃ sig', checked'.signature? name = some sig' ∧ sig.Refines sig'
  instantiations : checked.instantiations ⊆ checked'.instantiations
  globals : ∀ name g, checked.global? name = some g → checked'.global? name = some g

theorem Expr.mem_preorder (e : Expr) :
  e ∈ e.preorder
  := by
  obtain ⟨id, span, shape⟩ := e
  simp [Expr.preorder]

theorem Expr.mem_accessPath (e : Expr) :
  e ∈ e.accessPath
  := by
  unfold Expr.accessPath
  split <;> simp

theorem Expr.mem_preorder_of_mem_accessPath {e part : Expr} (h : part ∈ e.accessPath) :
  part ∈ e.preorder
  := by
  fun_induction Expr.accessPath e with
  | case1 id span target index ih =>
    rcases List.mem_cons.mp h with rfl | h
    · exact mem_preorder _
    · rw [Expr.preorder, shapePreorder]
      exact List.mem_cons_of_mem _ (List.mem_append_left _ (ih h))
  | case2 e =>
    obtain rfl := List.mem_singleton.mp h
    exact mem_preorder _

theorem CheckedModule.Agrees.mono {parts' : List Expr} (h : checked.Agrees parts checked') (hparts : parts' ⊆ parts) :
  checked.Agrees parts' checked'
  := { h with types := fun e he => h.types e (hparts he) }

/-- Only the types of other expressions differ. -/
theorem CheckedModule.Agrees.of_types {types : ExprTypes} (h : ∀ e ∈ parts, types.type? e.id = checked.type? e.id) :
  checked.Agrees parts { checked with exprTypes := types }
  := ⟨h, fun _ => id, fun _ sig hsig => ⟨sig, hsig, .refl sig⟩, fun _ => id, fun _ _ => id⟩

theorem CheckedModule.Calls.of_refines {id : Nat} {callee : String} {result : Ty} {σ : Substitution}
    (hrefines : sig.Refines sig') (hsig' : checked.signature? callee = some sig') (hresult : sig.result = some result)
    (hrecorded : sig.isGeneric = true → (id, ⟨callee, σ⟩) ∈ checked.instantiations) :
  checked.Calls id callee (sig.paramTypes.map σ.apply) (if sig.isGeneric then σ.apply result else result)
  := by
  have hgeneric : sig'.isGeneric = sig.isGeneric := by
    rw [FunctionSig.isGeneric, hrefines.typeVars, FunctionSig.isGeneric]
  have hparams : sig'.paramTypes = sig.paramTypes := by
    rw [FunctionSig.paramTypes, hrefines.params, FunctionSig.paramTypes]
  refine ⟨sig', result, σ, hsig', hrefines.result result hresult, ?_, ?_, fun h => hrecorded (hgeneric ▸ h)⟩
  · rw [hparams]
  · rw [hgeneric]

theorem CheckedModule.Agrees.calls (h : checked.Agrees parts checked') {id : Nat} {callee : String} {types : List Ty}
    {type : Ty} (hcalls : checked.Calls id callee types type) :
  checked'.Calls id callee types type
  := by
  obtain ⟨sig, result, σ, hsig, hresult, rfl, rfl, hrecorded⟩ := hcalls
  obtain ⟨sig', hsig', hrefines⟩ := h.signatures callee sig hsig
  exact .of_refines hrefines hsig' hresult fun hgeneric => h.instantiations (hrecorded hgeneric)

theorem CheckedModule.Agrees.bounds (h : checked.Agrees parts checked') {id : Nat} {index : Expr}
    {length : ArrayLength} (hbounds : checked.Bounds id index length) :
  checked'.Bounds id index length
  := hbounds.imp_left (h.dynamic id)

section

open CheckedModule

variable {checked checked' : CheckedModule} {result : Ty}

mutual

/-- Types are types in all units that know the same. -/
theorem HasType.agrees : ∀ (e : Expr) {scope : TypeScope} {type : Ty} {scope' : TypeScope},
    checked.Agrees e.preorder checked' → HasType checked result scope e type scope' →
      HasType checked' result scope e type scope'
  | .node id span shape, scope, type, scope', hagrees, h => by
    rw [Expr.preorder] at hagrees
    simp only [HasType] at h ⊢
    refine ⟨(hagrees.types _ (List.mem_cons_self ..)).trans h.1, ?_⟩
    exact FormHasType.agrees id shape (hagrees.mono (List.subset_cons_self ..)) h.2

theorem FormHasType.agrees (id : Nat) : ∀ (shape : Shape Expr) {scope : TypeScope} {type : Ty}
    {scope' : TypeScope}, checked.Agrees (shapePreorder shape) checked' →
      FormHasType checked result scope id shape type scope' →
      FormHasType checked' result scope id shape type scope'
  | .name n, scope, type, scope', hagrees, h => by
    simp only [FormHasType] at h ⊢
    exact ⟨h.1, fun hnone => (h.2.1 hnone).imp fun g hg => ⟨hagrees.globals n g hg.1, hg.2⟩, h.2.2⟩
  | .call callee args, scope, type, scope', hagrees, h => by
    simp only [FormHasType, shapePreorder] at h hagrees ⊢
    exact h.imp fun types h => ⟨hagrees.calls h.1, HaveTypes.agrees args hagrees h.2⟩
  | .binary op lhs rhs, scope, type, scope', hagrees, h => by
    simp only [FormHasType, shapePreorder] at h hagrees ⊢
    obtain ⟨operand, middle, hlhs, hrhs, hop⟩ := h
    exact ⟨operand, middle, hlhs.agrees lhs (hagrees.mono (by simp)),
      hrhs.agrees rhs (hagrees.mono (by simp)), hop⟩
  | .unary op operand, scope, type, scope', hagrees, h => by
    simp only [FormHasType, shapePreorder] at h hagrees ⊢
    exact ⟨h.1.agrees operand hagrees, h.2⟩
  | .declare isMutable name written init, scope, type, scope', hagrees, h => by
    simp only [FormHasType, shapePreorder] at h hagrees ⊢
    obtain ⟨t, middle, hinit, hscope, hwritten⟩ := h
    exact ⟨t, middle, hinit.agrees init hagrees, hscope, hwritten⟩
  | .assign name value, scope, type, scope', hagrees, h => by
    simp only [FormHasType, shapePreorder] at h hagrees ⊢
    obtain ⟨t, hname, hvalue⟩ := h
    exact ⟨t, hname, hvalue.agrees value hagrees⟩
  | .assignElement target index value, scope, type, scope', hagrees, h => by
    simp only [FormHasType, shapePreorder] at h hagrees ⊢
    obtain ⟨htuples, element, length, i, middle, middle', htarget, hindex, hi, hbounds, hvalue⟩ := h
    refine ⟨fun e he types => ?_, element, length, i, middle, middle',
      htarget.agrees target (hagrees.mono (by simp)), hindex.agrees index (hagrees.mono (by simp)), hi,
      hagrees.bounds hbounds, hvalue.agrees value (hagrees.mono (by simp))⟩
    rw [hagrees.types e (by simp [Expr.mem_preorder_of_mem_accessPath he])]
    exact htuples e he types
  | .cond isCheck test thenBranch none, scope, type, scope', hagrees, h => by
    simp only [FormHasType, shapePreorder] at h hagrees ⊢
    obtain ⟨htest, t, inner, hthen⟩ := h
    exact ⟨htest.agrees test (hagrees.mono (by simp)), t, inner,
      hthen.agrees thenBranch (hagrees.mono (by simp))⟩
  | .cond isCheck test thenBranch (some elseBranch), scope, type, scope', hagrees, h => by
    simp only [FormHasType, shapePreorder, optionPreorder] at h hagrees ⊢
    obtain ⟨htest, ⟨t, inner, hthen, hthenType⟩, t', inner', helse, helseType⟩ := h
    exact ⟨htest.agrees test (hagrees.mono (by simp)),
      ⟨t, inner, hthen.agrees thenBranch (hagrees.mono (by simp)), hthenType⟩,
      t', inner', helse.agrees elseBranch (hagrees.mono (by simp)), helseType⟩
  | .whileLoop isAsync test body, scope, type, scope', hagrees, h => by
    simp only [FormHasType, shapePreorder] at h hagrees ⊢
    obtain ⟨htest, t, inner, hbody⟩ := h
    exact ⟨htest.agrees test (hagrees.mono (by simp)), t, inner,
      hbody.agrees body (hagrees.mono (by simp))⟩
  | .forLoop init test step body, scope, type, scope', hagrees, h => by
    simp only [FormHasType, shapePreorder] at h hagrees ⊢
    obtain ⟨hscope, t, middle, inner, hinit, htest, ⟨t', inner', hbody⟩, t'', inner'', hstep⟩ := h
    exact ⟨hscope, t, middle, inner, hinit.agrees init (hagrees.mono (by simp)),
      htest.agrees test (hagrees.mono (by simp)),
      ⟨t', inner', hbody.agrees body (hagrees.mono fun e he => by simp [he])⟩, t'', inner'',
      hstep.agrees step (hagrees.mono fun e he => by simp [he])⟩
  | .loop body, scope, type, scope', hagrees, h => by
    simp only [FormHasType, shapePreorder] at h hagrees ⊢
    obtain ⟨hscope, t, inner, hbody⟩ := h
    exact ⟨hscope, t, inner, hbody.agrees body hagrees⟩
  | .ret (some value), scope, type, scope', hagrees, h => by
    simp only [FormHasType, shapePreorder, optionPreorder] at h hagrees ⊢
    exact h.agrees value hagrees
  | .element target index, scope, type, scope', hagrees, h => by
    simp only [FormHasType, shapePreorder] at h hagrees ⊢
    obtain ⟨length, i, middle, htarget, hindex, hi, hbounds⟩ | ⟨types, i, t, htarget, hindex, hi⟩ := h
    · exact .inl ⟨length, i, middle, htarget.agrees target (hagrees.mono (by simp)),
        hindex.agrees index (hagrees.mono (by simp)), hi, hagrees.bounds hbounds⟩
    · exact .inr ⟨types, i, t, htarget.agrees target (hagrees.mono (by simp)),
        hindex.agrees index (hagrees.mono (by simp)), hi⟩
  | .array items, scope, type, scope', hagrees, h => by
    simp only [FormHasType, shapePreorder] at h hagrees ⊢
    obtain ⟨element, htype, hitems⟩ := h
    exact ⟨element, htype, hitems.agrees items hagrees⟩
  | .tuple items, scope, type, scope', hagrees, h => by
    simp only [FormHasType, shapePreorder] at h hagrees ⊢
    obtain ⟨types, htype, hitems⟩ := h
    exact ⟨types, htype, hitems.agrees items hagrees⟩
  | .length target, scope, type, scope', hagrees, h => by
    simp only [FormHasType, shapePreorder] at h hagrees ⊢
    obtain ⟨htype, element, length, htarget⟩ := h
    exact ⟨htype, element, length, htarget.agrees target hagrees⟩
  | .alloc size, scope, type, scope', hagrees, h => by
    simp only [FormHasType, shapePreorder] at h hagrees ⊢
    obtain ⟨htype, t, hsize, ht⟩ := h
    exact ⟨htype, t, hsize.agrees size hagrees, ht⟩
  | .free pointer, scope, type, scope', hagrees, h => by
    simp only [FormHasType, shapePreorder] at h hagrees ⊢
    exact h.agrees pointer hagrees
  | .withResources resources body, scope, type, scope', hagrees, h => by
    simp only [FormHasType, shapePreorder] at h hagrees ⊢
    obtain ⟨hscope, middle, inner, hresources, hbody⟩ := h
    exact ⟨hscope, middle, inner, hresources.agrees resources (hagrees.mono (by simp)),
      hbody.agrees body (hagrees.mono (by simp))⟩
  | .scope body, scope, type, scope', hagrees, h | .atomic body, scope, type, scope', hagrees, h => by
    simp only [FormHasType, shapePreorder] at h hagrees ⊢
    obtain ⟨hscope, inner, hbody⟩ := h
    exact ⟨hscope, inner, hbody.agrees body hagrees⟩
  | .literal value, scope, type, scope', _, h | .breakLoop, scope, type, scope', _, h
  | .continueLoop, scope, type, scope', _, h | .ret none, scope, type, scope', _, h
  | .mutex op none, scope, type, scope', _, h => by
    simpa only [FormHasType] using h
  | .mutex op (some handle), scope, type, scope', hagrees, h => by
    simp only [FormHasType, shapePreorder, optionPreorder] at h hagrees ⊢
    exact ⟨h.1, h.2.agrees handle hagrees⟩

theorem BodyHasType.agrees : ∀ (body : List Expr) {scope : TypeScope} {type : Ty} {scope' : TypeScope},
    checked.Agrees (preorders body) checked' → BodyHasType checked result scope body type scope' →
      BodyHasType checked' result scope body type scope'
  | [], scope, type, scope', _, h => by
    simpa only [BodyHasType] using h
  | e :: rest, scope, type, scope', hagrees, h => by
    simp only [BodyHasType, preorders] at h hagrees ⊢
    obtain ⟨t, middle, he, hrest⟩ := h
    refine ⟨t, middle, he.agrees e (hagrees.mono (by simp)), ?_⟩
    cases hempty : rest.isEmpty with
    | true => simpa only [hempty, if_true] using hrest
    | false =>
      simp only [hempty, Bool.false_eq_true, if_false] at hrest ⊢
      exact hrest.agrees rest (hagrees.mono (by simp))

theorem HaveTypes.agrees : ∀ (items : List Expr) {scope : TypeScope} {types : List Ty}
    {scope' : TypeScope}, checked.Agrees (preorders items) checked' →
      HaveTypes checked result scope items types scope' →
      HaveTypes checked' result scope items types scope'
  | [], scope, types, scope', _, h => by
    simpa only [HaveTypes] using h
  | e :: rest, scope, types, scope', hagrees, h => by
    simp only [HaveTypes, preorders] at h hagrees ⊢
    obtain ⟨t, types', middle, htypes, he, hrest⟩ := h
    exact ⟨t, types', middle, htypes, he.agrees e (hagrees.mono (by simp)),
      hrest.agrees rest (hagrees.mono (by simp))⟩

theorem ResourcesHaveType.agrees : ∀ (resources : List (Resource Expr)) {scope scope' : TypeScope},
    checked.Agrees (resourcePreorders resources) checked' →
      ResourcesHaveType checked result scope resources scope' →
      ResourcesHaveType checked' result scope resources scope'
  | [], scope, scope', _, h => by
    simpa only [ResourcesHaveType] using h
  | ⟨name, init, span⟩ :: rest, scope, scope', hagrees, h => by
    simp only [ResourcesHaveType, resourcePreorders] at h hagrees ⊢
    obtain ⟨middle, hinit, hrest⟩ := h
    exact ⟨middle, hinit.agrees init (hagrees.mono (by simp)),
      hrest.agrees rest (hagrees.mono (by simp))⟩

end

end

end FormCompiler
