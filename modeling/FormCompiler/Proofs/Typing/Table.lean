import FormCompiler.Proofs.Parsing.Unit
import FormCompiler.Proofs.Word.Range

/-!
# The table of types

In a unit without problems the types that are recorded for its expressions are complete and fit together
(`isTyped_parseUnit`): all parts of typed expressions are typed, and so has every expression a type of its
own. An integer literal is a value of its type, since the lexer has found it to be a 64-bit number and the
type is wide enough for it.
-/

namespace FormCompiler

variable {c : CheckedModule}

/-! ## Parts of typed expressions -/

/-- An expression has a type in some scope. -/
def CheckedModule.Types (c : CheckedModule) (result : Ty) (e : Expr) : Prop :=
  ∃ scope type scope', HasType c result scope e type scope'

section

variable {c : CheckedModule} {result : Ty}

mutual

/-- All parts of a typed expression are typed. -/
theorem HasType.parts : ∀ (e : Expr) {scope : TypeScope} {type : Ty} {scope' : TypeScope},
    HasType c result scope e type scope' → ∀ part ∈ e.preorder, c.Types result part
  | .node id span shape, scope, type, scope', h => by
    rw [Expr.preorder, List.forall_mem_cons]
    refine ⟨⟨scope, type, scope', h⟩, ?_⟩
    rw [HasType] at h
    exact FormHasType.parts id shape h.2

theorem FormHasType.parts (id : Nat) : ∀ (shape : Shape Expr) {scope : TypeScope} {type : Ty}
    {scope' : TypeScope}, FormHasType c result scope id shape type scope' →
    ∀ part ∈ shapePreorder shape, c.Types result part
  | .literal _, _, _, _, _ | .name _, _, _, _, _ | .breakLoop, _, _, _, _ | .continueLoop, _, _, _, _ => by
    rw [shapePreorder]
    exact List.forall_mem_nil _
  | .ret none, _, _, _, _ | .mutex _ none, _, _, _, _ => by
    rw [shapePreorder, optionPreorder]
    exact List.forall_mem_nil _
  | .call callee args, _, _, _, h => by
    rw [FormHasType] at h
    rw [shapePreorder]
    obtain ⟨types, -, hargs⟩ := h
    exact hargs.parts args
  | .binary op lhs rhs, _, _, _, h => by
    rw [FormHasType] at h
    rw [shapePreorder]
    obtain ⟨operand, middle, hlhs, hrhs, -⟩ := h
    exact List.forall_mem_append.mpr ⟨hlhs.parts lhs, hrhs.parts rhs⟩
  | .unary op operand, _, _, _, h => by
    rw [FormHasType] at h
    rw [shapePreorder]
    exact h.1.parts operand
  | .declare isMutable name written init, _, _, _, h => by
    rw [FormHasType] at h
    rw [shapePreorder]
    obtain ⟨t, middle, hinit, -⟩ := h
    exact hinit.parts init
  | .assign name value, _, _, _, h => by
    rw [FormHasType] at h
    rw [shapePreorder]
    obtain ⟨t, -, hvalue⟩ := h
    exact hvalue.parts value
  | .assignElement target index value, _, _, _, h => by
    rw [FormHasType] at h
    rw [shapePreorder]
    obtain ⟨-, element, length, i, middle, middle', htarget, hindex, -, -, hvalue⟩ := h
    exact List.forall_mem_append.mpr
      ⟨List.forall_mem_append.mpr ⟨htarget.parts target, hindex.parts index⟩, hvalue.parts value⟩
  | .scope body, _, _, _, h | .atomic body, _, _, _, h => by
    rw [FormHasType] at h
    rw [shapePreorder]
    obtain ⟨-, inner, hbody⟩ := h
    exact hbody.parts body
  | .cond isCheck test thenBranch none, _, _, _, h => by
    rw [FormHasType] at h
    rw [shapePreorder, optionPreorder, List.append_nil]
    obtain ⟨htest, t, inner, hthen⟩ := h
    exact List.forall_mem_append.mpr ⟨htest.parts test, hthen.parts thenBranch⟩
  | .cond isCheck test thenBranch (some elseBranch), _, _, _, h => by
    rw [FormHasType] at h
    rw [shapePreorder, optionPreorder]
    obtain ⟨htest, ⟨t, inner, hthen, -⟩, t', inner', helse, -⟩ := h
    exact List.forall_mem_append.mpr
      ⟨List.forall_mem_append.mpr ⟨htest.parts test, hthen.parts thenBranch⟩, helse.parts elseBranch⟩
  | .whileLoop isAsync test body, _, _, _, h => by
    rw [FormHasType] at h
    rw [shapePreorder]
    obtain ⟨htest, t, inner, hbody⟩ := h
    exact List.forall_mem_append.mpr ⟨htest.parts test, hbody.parts body⟩
  | .forLoop init test step body, _, _, _, h => by
    rw [FormHasType] at h
    rw [shapePreorder]
    obtain ⟨-, t, middle, inner, hinit, htest, ⟨t', inner', hbody⟩, t'', inner'', hstep⟩ := h
    simp only [List.forall_mem_append]
    exact ⟨⟨⟨hinit.parts init, htest.parts test⟩, hbody.parts body⟩, hstep.parts step⟩
  | .loop body, _, _, _, h => by
    rw [FormHasType] at h
    rw [shapePreorder]
    obtain ⟨-, t, inner, hbody⟩ := h
    exact hbody.parts body
  | .ret (some value), _, _, _, h => by
    rw [FormHasType] at h
    rw [shapePreorder, optionPreorder]
    exact h.parts value
  | .element target index, _, _, _, h => by
    rw [FormHasType] at h
    rw [shapePreorder]
    obtain ⟨length, i, middle, htarget, hindex, -⟩ | ⟨types, i, t, htarget, hindex, -⟩ := h
    · exact List.forall_mem_append.mpr ⟨htarget.parts target, hindex.parts index⟩
    · exact List.forall_mem_append.mpr ⟨htarget.parts target, hindex.parts index⟩
  | .array items, _, _, _, h | .tuple items, _, _, _, h => by
    rw [FormHasType] at h
    rw [shapePreorder]
    obtain ⟨types, -, hitems⟩ := h
    exact hitems.parts items
  | .length target, _, _, _, h => by
    rw [FormHasType] at h
    rw [shapePreorder]
    obtain ⟨-, element, length, htarget⟩ := h
    exact htarget.parts target
  | .alloc size, _, _, _, h => by
    rw [FormHasType] at h
    rw [shapePreorder]
    obtain ⟨-, t, hsize, -⟩ := h
    exact hsize.parts size
  | .free pointer, _, _, _, h => by
    rw [FormHasType] at h
    rw [shapePreorder]
    exact h.parts pointer
  | .withResources resources body, _, _, _, h => by
    rw [FormHasType] at h
    rw [shapePreorder]
    obtain ⟨-, middle, inner, hresources, hbody⟩ := h
    exact List.forall_mem_append.mpr ⟨hresources.parts resources, hbody.parts body⟩
  | .mutex op (some handle), _, _, _, h => by
    rw [FormHasType] at h
    rw [shapePreorder, optionPreorder]
    exact h.2.parts handle

theorem BodyHasType.parts : ∀ (body : List Expr) {scope : TypeScope} {type : Ty} {scope' : TypeScope},
    BodyHasType c result scope body type scope' → ∀ part ∈ preorders body, c.Types result part
  | [], _, _, _, _ => by
    rw [preorders]
    exact List.forall_mem_nil _
  | e :: rest, _, _, _, h => by
    rw [BodyHasType] at h
    rw [preorders]
    obtain ⟨t, middle, he, hrest⟩ := h
    refine List.forall_mem_append.mpr ⟨he.parts e, ?_⟩
    split at hrest
    · next hempty =>
      rw [List.isEmpty_iff.mp hempty, preorders]
      exact List.forall_mem_nil _
    · exact hrest.parts rest

theorem HaveTypes.parts : ∀ (items : List Expr) {scope : TypeScope} {types : List Ty} {scope' : TypeScope},
    HaveTypes c result scope items types scope' → ∀ part ∈ preorders items, c.Types result part
  | [], _, _, _, _ => by
    rw [preorders]
    exact List.forall_mem_nil _
  | e :: rest, _, _, _, h => by
    rw [HaveTypes] at h
    rw [preorders]
    obtain ⟨t, types, middle, -, he, hrest⟩ := h
    exact List.forall_mem_append.mpr ⟨he.parts e, hrest.parts rest⟩

theorem ResourcesHaveType.parts : ∀ (resources : List (Resource Expr)) {scope scope' : TypeScope},
    ResourcesHaveType c result scope resources scope' →
    ∀ part ∈ resourcePreorders resources, c.Types result part
  | [], _, _, _ => by
    rw [resourcePreorders]
    exact List.forall_mem_nil _
  | ⟨name, init, span⟩ :: rest, _, _, h => by
    rw [ResourcesHaveType] at h
    rw [resourcePreorders]
    obtain ⟨middle, hinit, hrest⟩ := h
    exact List.forall_mem_append.mpr ⟨hinit.parts init, hrest.parts rest⟩

end

end

/-! ## Literals -/

/-- An integer is a value of a type. -/
def Ty.Represents (n : Int) : Ty → Prop
  | .int => -2 ^ 63 ≤ n ∧ n < 2 ^ 63
  | .sizedInt bits => 0 < bits ∧ -2 ^ (bits - 1) ≤ n ∧ n < 2 ^ (bits - 1)
  | _ => False

theorem Ty.represents_of_fitsLiteral {type : Ty} {n : Int} (h : type.fitsLiteral n = true)
    (hrange : isInt64 n = true) :
  type.Represents n
  := by
  cases type with
  | int => exact isInt64_iff.mp hrange
  | sizedInt bits =>
    rw [fitsLiteral, Word.fits] at h
    split at h
    · next hwide =>
      -- all numbers of 64 bits are numbers of more bits
      obtain ⟨hlow, hhigh⟩ := isInt64_iff.mp hrange
      have hpow : (2 : Int) ^ 63 ≤ 2 ^ (bits - 1) := pow_le_pow_right₀ (by decide) (by omega)
      exact ⟨by omega, by linarith, by linarith⟩
    · split at h
      · cases h
      · next hpositive => exact ⟨Nat.pos_of_ne_zero hpositive, by simpa [twoPow] using h⟩
  | _ => cases h

/-- The type of an integer literal is one that it fits. -/
theorem HasType.fits {result type : Ty} {scope scope' : TypeScope} {e : Expr} {n : Int}
    (h : HasType c result scope e type scope') (hshape : e.shape = .literal (.int n)) :
  type.fitsLiteral n = true
  := by
  obtain ⟨id, span, shape⟩ := e
  obtain rfl : shape = .literal (.int n) := hshape
  rw [HasType, FormHasType] at h
  exact h.2.1

/-! ## Units -/

/-- A function has the signature that it declares, and its body the types that the signature says. -/
def CheckedModule.Defines (c : CheckedModule) (kind : FunctionKind) (name : String) (params : List Param)
    (result : Option Ty) (span : Span) (body : List Expr) : Prop :=
  ∃ declared sig, FunctionSig.ofDecl kind name params result span = .ok declared
    ∧ c.declared? name = some sig ∧ declared.Refines sig ∧ FunctionHasType c sig body

/-- The types that are recorded for a unit are complete and fit together. -/
structure Module.IsTyped (m : Module) (c : CheckedModule) : Prop where
  functions : ∀ decl, Item.function decl ∈ m.flatItems →
    c.Defines .function decl.name decl.params decl.result decl.span decl.body
  operators : ∀ decl, Item.operator decl ∈ m.flatItems →
    c.Defines .operator decl.symbol decl.params decl.result decl.span decl.body
  /-- The initialiser of a constant has the type of the constant, which is the written one if there is one. -/
  constants : ∀ decl, Item.const decl ∈ m.flatItems → ∃ g, c.global? decl.name = some g
    ∧ (∀ w, decl.type = some w → g.type = w.resolve) ∧ HasType c .none [] decl.init g.type []
  topLevel : ∃ types scope, HaveTypes c .none [] (m.flatItems.filterMap Item.expr?) types scope
  /-- Every expression has a type, of which an integer literal is a value. -/
  recorded : ∀ e ∈ m.flatItems.flatMap Item.parts, ∃ type, c.type? e.id = some type
    ∧ ∀ n, e.shape = .literal (.int n) → type.Represents n

theorem Item.Signed.defines {item : Item} {kind : FunctionKind} {name : String} {params : List Param}
    {result : Option Ty} {span : Span} {body : List Expr} (hsigns : c.Signs kind name params result span)
    (htyped : item.Typed c) (hdefinition : item.definition? = some ⟨name, body, span⟩) :
  c.Defines kind name params result span body
  := by
  obtain ⟨declared, sig, hdeclared, hsig, hrefines⟩ := hsigns
  exact ⟨declared, sig, hdeclared, hsig, hrefines, htyped _ hdefinition sig hsig⟩

theorem CheckedModule.Defines.parts {kind : FunctionKind} {name : String} {params : List Param} {result : Option Ty}
    {span : Span} {body : List Expr} (h : c.Defines kind name params result span body) :
  ∀ part ∈ preorders body, ∃ result, c.Types result part
  := by
  obtain ⟨-, sig, -, -, -, result, type, scope, -, hbody, -⟩ := h
  exact fun part hpart => ⟨result, hbody.parts body part hpart⟩

/-- The types that are recorded for a parsed unit without problems are complete and fit together. -/
theorem isTyped_parseUnit (source : String) (imports : List FunctionSig)
    (hclean : (checkModule (parseUnit source).module imports).problems = []) :
  (parseUnit source).module.IsTyped (checkModule (parseUnit source).module imports)
  := by
  have hnumbered := numbered_parseUnit source
  generalize (parseUnit source).module = m at hclean hnumbered ⊢
  obtain ⟨hitems, hholds, htopLevel⟩ := sound_checkModule hnumbered hclean
  generalize checkModule m imports = c at hitems hholds htopLevel ⊢
  have hfunctions : ∀ decl, Item.function decl ∈ m.flatItems →
      c.Defines .function decl.name decl.params decl.result decl.span decl.body :=
    fun decl hdecl => Item.Signed.defines (hitems _ hdecl).1 (hitems _ hdecl).2 rfl
  have hoperators : ∀ decl, Item.operator decl ∈ m.flatItems →
      c.Defines .operator decl.symbol decl.params decl.result decl.span decl.body :=
    fun decl hdecl => Item.Signed.defines (hitems _ hdecl).1 (hitems _ hdecl).2 rfl
  refine ⟨hfunctions, hoperators, fun decl hdecl => ?_, htopLevel, fun e he => ?_⟩
  · obtain ⟨before, g, after, -, hg⟩ := hholds.declared decl hdecl
    exact ⟨g, hg.global, hg.written, hg.typed⟩
  obtain ⟨item, hitem, hpart⟩ := List.mem_flatMap.mp he
  obtain ⟨result, scope, type, scope', htyped⟩ : ∃ result, c.Types result e := by
    cases item with
    | function decl => exact (hfunctions decl hitem).parts e hpart
    | operator decl => exact (hoperators decl hitem).parts e hpart
    | const decl =>
      obtain ⟨before, g, after, -, hg⟩ := hholds.declared decl hitem
      exact ⟨.none, hg.typed.parts decl.init e (Item.parts_const decl ▸ hpart)⟩
    | expr root =>
      obtain ⟨types, scope, htypes⟩ := htopLevel
      have hroot : root ∈ m.flatItems.filterMap Item.expr? := List.mem_filterMap.mpr ⟨_, hitem, rfl⟩
      refine ⟨.none, htypes.parts _ e ?_⟩
      rw [preorders_eq_flatMap]
      exact List.mem_flatMap.mpr ⟨root, hroot, by simpa [Item.parts, Item.roots, preorders] using hpart⟩
    | _ => simp [Item.parts, Item.roots, preorders] at hpart
  refine ⟨type, htyped.type?, fun n hshape => Ty.represents_of_fitsLiteral (htyped.fits hshape) ?_⟩
  have hparsed := hnumbered.shapes e he
  rw [hshape] at hparsed
  exact hparsed

/-- A narrow literal in a constant, and a generic function that is called with it. -/
def readsLow : String :=
  "[const (low !array<!int<8>,1>) [array -128]]
  [func first ((xs !array<!T,N>)) -> !T [index xs 0]]
  [tuple [first low] 1]"

theorem isTyped_readsLow :
  (checkModule (parseUnit readsLow).module []).problems = []
    ∧ (parseUnit readsLow).module.IsTyped (checkModule (parseUnit readsLow).module [])
  := by
  have hclean : (checkModule (parseUnit readsLow).module []).problems = [] := by decide +kernel
  exact ⟨hclean, isTyped_parseUnit readsLow [] hclean⟩

end FormCompiler
