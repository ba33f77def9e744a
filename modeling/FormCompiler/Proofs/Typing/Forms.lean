import FormCompiler.Proofs.Typing.Assign

/-!
# Checked forms

One lemma for each form: if the parts of a form are typed when they are checked, so is the form. The
induction over expressions that puts them together is in `Proofs.Typing.Function`.
-/

namespace FormCompiler

open CheckState

variable {scope scope' : TypeScope}

/-! ## Expressions and lists of expressions -/

/-- A form has a type that its literals have by themselves, once the type is recorded. -/
def NaturalAt (c : CheckedModule) (id : Nat) (shape : Shape Expr) (type : Ty) : Prop :=
  ∀ types : ExprTypes, types.type? id = some type →
    (∀ part ∈ shapePreorder shape, types.type? part.id = c.type? part.id) → NaturalShape types id shape

theorem FormHasType.lasts {id : Nat} {shape : Shape Expr} {type : Ty} :
  Lasts (shapePreorder shape) fun c r => FormHasType c r scope id shape type scope'
  := fun _ _ _ hagrees h => h.agrees id shape hagrees

theorem HaveTypes.type?_items {c : CheckedModule} {r : Ty} {items : List Expr} {types : List Ty}
    (h : HaveTypes c r scope items types scope') :
  List.Forall₂ (fun e type => c.exprTypes.type? e.id = some type) items types
  := by
  induction items generalizing types scope with
  | nil =>
    rw [HaveTypes] at h
    obtain ⟨rfl, -⟩ := h
    exact .nil
  | cons e rest ih =>
    rw [HaveTypes] at h
    obtain ⟨t, types, middle, rfl, he, hrest⟩ := h
    exact .cons he.type? (ih hrest)

theorem HaveTypes.type?_replicate {c : CheckedModule} {r type : Ty} {items : List Expr}
    (h : HaveTypes c r scope items (List.replicate items.length type) scope') :
  ∀ e ∈ items, c.type? e.id = some type
  := by
  induction items generalizing scope with
  | nil => simp
  | cons e rest ih =>
    rw [HaveTypes] at h
    obtain ⟨t, types, middle, heq, he, hrest⟩ := h
    obtain ⟨rfl, rfl⟩ := List.cons.inj heq
    exact List.forall_mem_cons.mpr ⟨he.type?, ih hrest⟩

/-- What is known after the check of an expression. -/
def Finds (e : Expr) (s : CheckState) (type : Ty) (s' : CheckState) : Prop :=
  Checks e.preorder (fun c r => HasType c r s.scope e type s'.scope ∧ Check.IsNatural c e type) s s'

/-- What is known after the check of a form. -/
def FindsForm (id : Nat) (shape : Shape Expr) (s : CheckState) (type : Ty) (s' : CheckState) : Prop :=
  Checks (shapePreorder shape)
    (fun c r => FormHasType c r s.scope id shape type s'.scope ∧ NaturalAt c id shape type) s s'

/-- What is known after the check of a body. -/
def FindsBody (items : List Expr) (s : CheckState) (type : Ty) (s' : CheckState) : Prop :=
  Checks (preorders items) (fun c r => BodyHasType c r s.scope items type s'.scope) s s'

section

variable {n : Nat} {e : Expr} {s s' : CheckState} {type : Ty}

theorem Finds.lasts :
  Lasts e.preorder fun c r => HasType c r scope e type scope' ∧ Check.IsNatural c e type
  := fun _ _ _ hagrees h => ⟨HasType.lasts _ _ _ hagrees h.1, Check.IsNatural.lasts _ _ .none hagrees h.2⟩

/-- A form that cannot take another type. -/
theorem FindsForm.of_typed {id : Nat} {shape : Shape Expr}
    (hnatural : ∀ types, NaturalShape types id shape)
    (h : Checks (shapePreorder shape) (fun c r => FormHasType c r s.scope id shape type s'.scope) s s') :
  FindsForm id shape s type s'
  := h.mono fun _ _ h => ⟨h, fun types _ _ => hnatural types⟩

theorem Finds.hasType (h : Finds e s type s') :
  Checks e.preorder (fun c r => HasType c r s.scope e type s'.scope) s s'
  := h.mono fun _ _ h => h.1

end

/-! ## Forms -/

namespace Check

section

variable {σ : Substitution} {param found : Ty}
    {arg init value target index test thenBranch elseBranch step pointer e : Expr} {s₀ : CheckState} {text : String}
    {args rest : List Expr} {isCheck jumped : Bool}

attribute [local simp] form

variable {n : Nat} {s : CheckState} {tail : Bool} {id : Nat} {span : Span}

/-- The type of an expression is the one that is recorded for its form. -/
theorem ensures_node {shape : Shape Expr} (hs : s.Sound n)
    (hnumbered : Numbered n (Expr.node id span shape).preorder)
    (hform : Ensures s (form tail id span shape) (FindsForm id shape s)) :
  Ensures s (expr tail (.node id span shape)) (Finds (.node id span shape) s)
  := by
  rw [Expr.preorder] at hnumbered
  refine hform.bind fun type s₁ h => .bind_modify (.pure ?_)
  set s₂ : CheckState :=
    { s₁ with checked := { s₁.checked with exprTypes := s₁.checked.exprTypes.record id type } } with hs₂
  have hgrown : s₁.Grown [id] s₂ :=
    ⟨.of_gains (CheckedModule.gains_record id type), .refl _⟩
  have hid : id < s₁.checked.exprTypes.length := by
    rw [(h.grown.sound hs).types]
    exact hnumbered.lt _ (List.mem_cons_self ..)
  have htype : s₂.checked.type? id = some type := ExprTypes.type?_record_self hid type
  have hapart : List.Disjoint ((shapePreorder shape).map Expr.id) [id] := by
    simpa [List.disjoint_singleton, Expr.id] using hnumbered.not_mem
  have hagrees := hgrown.toLearned.agrees hapart
  refine ⟨?_, fun result hresult => ?_⟩
  · rw [Expr.preorder, List.map_cons]
    exact (h.grown.mono (List.subset_cons_self ..)).trans (hgrown.mono (by simp [Expr.id]))
  · obtain ⟨hform, hnatural⟩ := h.known result (hgrown.toLearned.expects hresult)
    refine ⟨?_, ?_, htype⟩
    · rw [HasType]
      exact ⟨htype, FormHasType.lasts _ _ _ hagrees hform⟩
    · rw [Natural]
      exact hnatural _ htype fun part hpart => hagrees.types part hpart

/-! ### Literals, names and calls -/

theorem ensures_literal (value : Literal) :
  Ensures s (form tail id span (.literal value)) (FindsForm id (.literal value) s)
  := by
  simp only [form]
  refine .pure ⟨.refl _ _, fun result _ => ⟨?_, fun types htype _ => ?_⟩⟩
  · rw [FormHasType]
    exact ⟨by cases value <;> rfl, rfl⟩
  · rw [NaturalShape]
    exact htype

/-- Something that is only looked up. -/
theorem kept_symbols {symbols : SymbolTable} (hdepth : symbols.depth = s.symbols.depth)
    (hbindings : symbols.bindings = s.symbols.bindings) :
  s.Kept { s with symbols := symbols }
  := ⟨⟨⟨.refl _ _ _, rfl, rfl, fun _ h => h⟩, .of_eq hdepth hbindings⟩,
    congrArg SymbolTable.localsOf hbindings⟩

theorem ensures_name (hs : s.Sound n) (text : String) :
  Ensures s (form tail id span (.name text)) (FindsForm id (.name text) s)
  := by
  simp only [form]
  refine .bind_get ?_
  split
  · exact .throw
  · next symbol symbols hlookup =>
    obtain ⟨hdepth, hbindings, bound, hbound, htype, hstorage⟩ := SymbolTable.of_lookup hlookup
    obtain ⟨hgrown, hscope⟩ := kept_symbols hdepth hbindings
    refine .bind_modify ?_
    split
    · exact bind_fail
    · next hcallable =>
      refine .pure (.of_typed (by simp [NaturalShape]) ⟨hgrown, fun result _ => ?_⟩)
      rw [FormHasType, CheckState.scope, hs.symbols.lookup_locals hbound]
      refine ⟨fun x hx => ?_, fun hglobal => ?_, hscope⟩
      · split at hx
        · exact Option.some.inj hx ▸ htype
        · cases hx
      · -- what is not a local and cannot be called is a constant
        have hconstant : bound.unread.storage = .constant := by
          change bound.storage = .constant
          rw [Symbol.isCallable] at hcallable
          rw [hstorage] at hglobal ⊢
          cases hsymbol : symbol.storage <;> simp [hsymbol] at hcallable hglobal ⊢
        have hmem := List.mem_of_find?_eq_some (SymbolTable.find?_bindings hbound)
        obtain ⟨-, g, hg, hgtype⟩ := hs.constants _ hmem hconstant
        have hname : bound.name = text := (SymbolTable.of_peek? hbound).2
        exact ⟨g, hname ▸ hg, hgtype.trans htype⟩

/-- The signature of a callee is the one that its name stands for from then on. -/
theorem ensures_callee (hs : s.Sound n) (text : String) :
  Ensures s (callee text span) fun sig s' => s.Kept s' ∧ s'.checked.signature? text = some sig
  := by
  refine .bind_get ?_
  dsimp only
  split
  · next symbol symbols hlookup =>
    obtain ⟨hdepth, hbindings, -⟩ := SymbolTable.of_lookup hlookup
    have hkept := kept_symbols (s := s) hdepth hbindings
    refine Ensures.bind (m := fun _ s' => s' = { s with symbols := symbols }) ?_ ?_
    · rintro _ _ ⟨⟩
      rfl
    rintro _ _ rfl
    split
    · split
      · next sig hsig => exact .pure ⟨hkept, CheckedModule.signature?_of_declared? hsig⟩
      · exact ensures_fail
    · exact bind_fail
  · next e hlookup =>
    split
    · exact .throw
    · next sig hfind =>
      -- a name without a binding is not declared
      have hundeclared : s.checked.declared? text = none := by
        refine List.find?_eq_none.mpr fun other hother hname => ?_
        obtain ⟨b, hb, hbname⟩ := hs.bound other hother
        exact SymbolTable.not_mem_of_lookup_error hlookup b hb (hbname.trans (beq_iff_eq.mp hname))
      have hname : sig.name = text := by simpa using List.find?_some hfind
      split
      · next hknown =>
        refine .pure ⟨.refl s, ?_⟩
        rw [CheckedModule.signature?_eq, hundeclared, Option.none_or]
        obtain ⟨other, hother, hothername⟩ := List.any_eq_true.mp hknown
        cases hfound : s.checked.imported.find? (·.name == text) with
        | none => exact absurd hothername (by simpa using List.find?_eq_none.mp hfound other hother)
        | some known =>
          have hknown := hs.imported known (List.mem_of_find?_eq_some hfound)
          have hsame : known.name = text := by simpa using List.find?_some hfound
          rw [hsame, hfind] at hknown
          exact hknown.symm
      · next hunknown =>
        refine (ensures_learn ?_).bind fun _ s₁ h₁ => .pure ⟨h₁.2, ?_⟩
        · refine { CheckedModule.Gains.refl [] s.imports s.checked with imported := ⟨[sig], rfl, ?_⟩ }
          exact List.forall_mem_singleton.mpr (hname ▸ hfind)
        · rw [h₁.1, CheckedModule.signature?_eq]
          have hnone : s.checked.imported.find? (·.name == text) = none := by
            simpa [List.find?_eq_none] using hunknown
          change (s.checked.declared? text).or ((s.checked.imported ++ [sig]).find? _) = _
          rw [hundeclared, Option.none_or, List.find?_append, hnone, Option.none_or]
          simp [hname]

/-- The type of an argument is that of the parameter, whatever is bound later. -/
def Matches (σ : Substitution) (param : Ty) (type : Ty) (done new : List Demand) : Prop :=
  σ.Follows (done ++ new)
    ∧ ∀ (τ : Substitution) all, τ.Follows all → done ++ new ⊆ all → τ.apply param = type

/-- What is known after the check of arguments: their types are those of the parameters. -/
def FindsArguments (params : List Ty) (args : List Expr) (done : List Demand) (s : CheckState)
    (σ : Substitution) (s' : CheckState) : Prop :=
  ∃ types new, σ.Follows (done ++ new)
    ∧ (∀ (τ : Substitution) all, τ.Follows all → done ++ new ⊆ all → params.map τ.apply = types)
    ∧ Checks (preorders args) (fun c r => HaveTypes c r s.scope args types s'.scope) s s'

/-- An argument has a type after it has been matched with a parameter. -/
theorem ensures_argument {done : List Demand} (hs₀ : s₀.Sound n) (hnumbered : Numbered n arg.preorder)
    (h : Finds arg s₀ found s) (hσ : σ.Follows done) :
  Ensures s (argument σ param arg found) fun σ' s' => ∃ type new, Matches σ' param type done new
    ∧ Checks arg.preorder (fun c r => HasType c r s₀.scope arg type s'.scope) s₀ s'
  := by
  unfold argument
  split
  · dsimp only
    split
    · next herror =>
      have hresult := Substitution.result?_unify σ param found
      rw [Substitution.Attempt.result?_eq_some.mpr ⟨herror, rfl⟩] at hresult
      obtain ⟨new, hdemands, hbind⟩ := Option.bind_eq_some_iff.mp hresult.symm
      refine .pure ⟨found, new, ⟨hσ.bindAll hbind, fun τ all hτ hall => ?_⟩, h.hasType⟩
      exact hτ.apply_eq hdemands fun d hd => hall (List.mem_append_right _ hd)
    · exact .throw
    · exact ensures_fail
  · next hconcrete =>
    refine (ensures_expectAssignable (HasType.assigns hnumbered) hs₀ h.hasType param).bind ?_
    rintro _ s' ⟨hchecks, hscope⟩
    refine .pure ⟨param, [], ⟨by rwa [List.append_nil], fun τ _ _ _ => ?_⟩, hscope ▸ hchecks⟩
    exact τ.apply_of_isGeneric (by simpa using hconcrete)

theorem ensures_markTailRecursive (text : String) :
  Ensures s (markTailRecursive text) fun _ s' => s.Kept s'
  := by
  refine (ensures_learn { CheckedModule.Gains.refl [] s.imports s.checked with signatures := ?_ }).mono
    fun _ _ h => h.2
  rw [List.map_map]
  refine List.map_congr_left fun sig _ => ?_
  by_cases h : sig.name = text <;> simp [h, FunctionSig.plain]

/-- A call has the result type of the callee, and what it binds is recorded. -/
theorem ensures_call {sig sig' : FunctionSig} (hsig' : s.checked.signature? text = some sig')
    (hrefines : sig.Refines sig') :
  Ensures s (call tail id span text sig σ) fun type s' => s.Kept s'
    ∧ s'.checked.Calls id text (sig.paramTypes.map σ.apply) type
  := by
  unfold call
  split
  · exact ensures_fail
  · next result hresult =>
    have hcalls : ∀ {s'}, s.Kept s' → (sig.isGeneric = true → (id, ⟨text, σ⟩) ∈ s'.checked.instantiations) →
        s'.checked.Calls id text (sig.paramTypes.map σ.apply)
          (if sig.isGeneric then σ.apply result else result) := by
      intro s' hkept hrecorded
      obtain ⟨sig'', hsig'', hrefines'⟩ := hkept.1.toGains.signature? hsig'
      exact .of_refines (hrefines.trans hrefines') hsig'' hresult hrecorded
    refine .bind_ite (m := fun s' => s.Kept s'
        ∧ (sig.isGeneric = true → (id, ⟨text, σ⟩) ∈ s'.checked.instantiations)) (fun _ => ?_)
      (fun hgeneric => ⟨.refl s, fun h => absurd h hgeneric⟩) fun s₁ h₁ => .bind_get ?_
    · refine (ensures_learn { CheckedModule.Gains.refl [] s.imports s.checked with
        instantiations := List.subset_append_left .. }).mono ?_
      rintro _ _ ⟨rfl, hkept⟩
      exact ⟨hkept, fun _ => List.mem_append_right _ List.mem_cons_self⟩
    · dsimp only
      split
      · refine (ensures_learn (.of_eq rfl rfl rfl rfl rfl rfl)).bind fun _ s₂ h₂ =>
          (ensures_markTailRecursive text).bind fun _ s₃ h₃ => .pure ?_
        have hkept := h₂.2.trans h₃
        exact ⟨h₁.1.trans hkept, hcalls (h₁.1.trans hkept) fun h => hkept.1.instantiations (h₁.2 h)⟩
      · exact .pure ⟨h₁.1, hcalls h₁.1 h₁.2⟩

theorem ensures_call_form
    (hargs : ∀ s₁, s₁.Sound n → ∀ params : List Ty, params.length = args.length →
      Ensures s₁ (arguments .empty params args) fun σ s₂ =>
        Checks (preorders args) (fun c r => HaveTypes c r s₁.scope args (params.map σ.apply) s₂.scope) s₁ s₂)
    (hs : s.Sound n) :
  Ensures s (form tail id span (.call text args)) (FindsForm id (.call text args) s)
  := by
  simp only [form]
  refine (ensures_callee hs text).bind fun sig s₁ h₁ => ?_
  split
  · exact bind_fail
  · next hlength =>
    refine (hargs s₁ (h₁.1.1.sound hs) sig.paramTypes ?_).bind fun σ s₂ h₂ => ?_
    · simpa [FunctionSig.paramTypes] using hlength
    obtain ⟨sig', hsig', hrefines⟩ := h₂.grown.toGains.signature? h₁.2
    refine (ensures_call hsig' hrefines).mono fun type s₃ h₃ => .of_typed (by simp [NaturalShape]) ?_
    refine (Checks.after h₁.1.1 (h₂.andThen HaveTypes.lasts h₃.1.1)).mono fun result _ h => ?_
    rw [FormHasType, ← h₁.1.2, h₃.1.2]
    exact ⟨_, h₃.2, h⟩

/-! ### Operators -/

theorem ensures_binary {lhs rhs : Expr} {op : BinaryOp}
    (hlhs : Ensures s (expr false lhs) (Finds lhs s))
    (hrhs : ∀ s₁, s₁.Sound n → Ensures s₁ (expr false rhs) (Finds rhs s₁)) (hs : s.Sound n)
    (hnumbered : Numbered n (lhs.preorder ++ rhs.preorder)) :
  Ensures s (form tail id span (.binary op lhs rhs)) (FindsForm id (.binary op lhs rhs) s)
  := by
  simp only [form]
  refine hlhs.bind fun left s₁ h₁ => (hrhs s₁ (h₁.grown.sound hs)).bind fun right s₂ h₂ => ?_
  have h₁₂ := h₁.append Finds.lasts h₂ hnumbered
  have hoperands : Ensures s₂ (operands lhs rhs left right) fun type s₃ =>
      Checks (lhs.preorder ++ rhs.preorder) (fun c r => HasType c r s.scope lhs type s₁.scope
        ∧ HasType c r s₁.scope rhs type s₂.scope) s s₃ ∧ s₃.scope = s₂.scope := by
    unfold operands
    split
    · next heq =>
      subst heq
      exact .pure ⟨h₁₂.mono fun _ _ h => ⟨h.1.1, h.2.1⟩, rfl⟩
    · exact ensures_common (HasType.assigns hnumbered.left) (HasType.assigns hnumbered.right) hnumbered
        hs h₁₂ _
  refine hoperands.bind fun type s₃ h₃ => ?_
  unfold binary
  dsimp only
  split
  · next hkind =>
    refine .pure (.of_typed (by simp [NaturalShape]) (h₃.1.mono fun result _ h => ?_))
    rw [FormHasType, h₃.2]
    exact ⟨type, s₁.scope, h.1, h.2, hkind, rfl⟩
  · exact bind_fail

theorem ensures_unaryType {op : UnaryOp} :
  Ensures s (unary op span type) fun t s' => s' = s ∧ t = type ∧ op.Takes type
  := by
  have hrun : ∀ {ok : Bool} {expected : Expectation}, (ok = true → op.Takes type) →
      Ensures s (if ok = true then pure type else do
        fail span (.mismatch expected type)
        pure type) fun t s' => s' = s ∧ t = type ∧ op.Takes type := by
    intro ok expected hok
    split
    · next h => exact .pure ⟨rfl, rfl, hok h⟩
    · exact bind_fail
  unfold unary
  cases op with
  | neg => exact hrun fun h => h
  | not => exact hrun fun h => by simpa [UnaryOp.Takes] using h
  | bitNot => exact hrun fun h => h

theorem ensures_unary {operand : Expr} {op : UnaryOp}
    (hoperand : Ensures s (expr false operand) (Finds operand s)) :
  Ensures s (form tail id span (.unary op operand)) (FindsForm id (.unary op operand) s)
  := by
  simp only [form]
  refine hoperand.bind fun type s₁ h₁ => ensures_unaryType.mono ?_
  rintro _ _ ⟨rfl, rfl, htakes⟩
  refine .of_typed (by simp [NaturalShape]) (h₁.mono fun result _ h => ?_)
  rw [FormHasType]
  exact ⟨h.1, htakes⟩

/-! ### Declarations and assignments -/

/-- A written type is resolved. -/
theorem ensures_annotated (written : Ty) (span : Span) :
  Ensures s (annotated written span) fun type s' => s = s' ∧ type = written.resolve
  := by
  refine .bind_get ?_
  dsimp only
  split
  · exact ensures_fail
  · exact .pure ⟨rfl, rfl⟩

theorem ensures_declareLocal {isMutable : Bool} {written : Option Ty}
    (hinit : Ensures s (expr false init) (Finds init s)) (hs : s.Sound n) (hnumbered : Numbered n init.preorder) :
  Ensures s (form tail id span (.declare isMutable text written init))
    (FindsForm id (.declare isMutable text written init) s)
  := by
  simp only [form]
  refine hinit.bind fun found s₁ h₁ => ?_
  have hdeclare : ∀ {type s₂}, (∀ w, written = some w → type = w.resolve) →
      Checks init.preorder (fun c r => HasType c r s.scope init type s₁.scope) s s₂
        ∧ s₂.scope = s₁.scope → Ensures s₂ (do
        declare (.ofStorage .stack isMutable text type span)
        return .none) (FindsForm id (.declare isMutable text written init) s) := by
    intro type s₂ hwritten h₂
    have hstack : (Symbol.ofStorage .stack isMutable text type span).storage = .stack := rfl
    refine (ensures_declare hstack).bind fun _ s₃ h₃ => .pure (.of_typed (by simp [NaturalShape]) ?_)
    refine (h₂.1.andThen HasType.lasts h₃.1).mono fun result _ h => ?_
    rw [FormHasType, h₃.2, h₂.2]
    exact ⟨type, s₁.scope, h, rfl, hwritten⟩
  unfold bindLocal
  cases written with
  | none =>
    dsimp only
    split
    · exact bind_fail
    · exact hdeclare (fun _ h => by cases h) ⟨h₁.hasType, rfl⟩
  | some written =>
    refine (ensures_annotated written span).bind ?_
    rintro _ _ ⟨rfl, rfl⟩
    exact (ensures_expectAssignable (HasType.assigns hnumbered) hs h₁.hasType _).bind
      fun _ _ h => hdeclare (fun w hw => by rw [Option.some.inj hw]) h

theorem ensures_assign (hvalue : Ensures s (expr false value) (Finds value s)) (hs : s.Sound n)
    (hnumbered : Numbered n value.preorder) :
  Ensures s (form tail id span (.assign text value)) (FindsForm id (.assign text value) s)
  := by
  simp only [form]
  refine .bind_get ?_
  split
  · exact .throw
  · next target htarget =>
    refine hvalue.bind fun found s₁ h₁ => ?_
    refine (ensures_expectAssignable (HasType.assigns hnumbered) hs h₁.hasType target.type).bind
      fun _ s₂ h₂ => .pure (.of_typed (by simp [NaturalShape]) (h₂.1.mono fun result _ h => ?_))
    rw [FormHasType, h₂.2]
    exact ⟨target.type, SymbolTable.of_assignTarget hs.symbols htarget, h⟩

/-! ### Elements -/

/-- The type of an element, and that its index is in range or compared with the length. -/
theorem ensures_elementType {targetType indexType : Ty} :
  Ensures s (element id target index targetType indexType) fun type s' => s.Kept s'
    ∧ indexType.isInteger = true
    ∧ ((∃ length, targetType = .array type length ∧ s'.checked.Bounds id index length)
      ∨ ∃ types i, targetType = .tuple types ∧ index.intLiteral? = some i ∧ 0 ≤ i
        ∧ types[i.toNat]? = some type)
  := by
  cases hinteger : indexType.isInteger with
  | false => cases targetType <;> simp only [element, hinteger] <;> exact .bind_throw
  | true =>
    cases targetType with
    | array type length =>
      simp only [element, hinteger, if_true]
      split
      · next i n hi =>
        split
        · exact bind_fail
        · next hrange =>
          rw [not_or, Int.not_lt, Int.not_le] at hrange
          exact .pure ⟨.refl s, trivial, .inl ⟨_, rfl, .inr ⟨i, n, hi, rfl, hrange.1, hrange.2⟩⟩⟩
      · refine (ensures_learn { CheckedModule.Gains.refl [] s.imports s.checked with
          dynamic := by simp +contextual [CheckedModule.isDynamicIndex] }).bind ?_
        rintro _ _ ⟨rfl, hkept⟩
        exact .pure ⟨hkept, trivial, .inl ⟨_, rfl, .inl (by simp [CheckedModule.isDynamicIndex])⟩⟩
    | tuple types =>
      simp only [element, hinteger, if_true]
      split
      · exact ensures_fail
      · next i hi =>
        split
        · exact bind_fail
        · next hnegative =>
          split
          · next type htype =>
            exact .pure ⟨.refl s, trivial, .inr ⟨types, i, rfl, hi, Int.not_lt.mp hnegative, htype⟩⟩
          · exact ensures_fail
    | _ =>
      simp only [element, hinteger, if_true]
      exact ensures_fail

/-- A literal declares nothing. -/
theorem scope_of_intLiteral {i : Int} (hi : index.intLiteral? = some i) {c : CheckedModule} {result : Ty}
    (h : HasType c result scope index type scope') :
  scope' = scope
  := by
  obtain ⟨id, span, shape⟩ := index
  cases shape <;> simp [Expr.intLiteral?] at hi
  simp only [HasType, FormHasType] at h
  exact h.2.2

theorem ensures_element (htarget : Ensures s (expr false target) (Finds target s))
    (hindex : ∀ s₁, s₁.Sound n → Ensures s₁ (expr false index) (Finds index s₁)) (hs : s.Sound n)
    (hnumbered : Numbered n (target.preorder ++ index.preorder)) :
  Ensures s (form tail id span (.element target index)) (FindsForm id (.element target index) s)
  := by
  simp only [form]
  refine htarget.bind fun targetType s₁ h₁ => (hindex s₁ (h₁.grown.sound hs)).bind fun indexType s₂ h₂ => ?_
  refine ensures_elementType.mono ?_
  rintro type s₃ ⟨hkept, hinteger, hcases⟩
  have h₁₂ := (h₁.append Finds.lasts h₂ hnumbered).andThen (Finds.lasts.and Finds.lasts) hkept.1
  refine .of_typed (by simp [NaturalShape]) (h₁₂.mono fun result _ h => ?_)
  rw [FormHasType, hkept.2]
  obtain ⟨length, rfl, hbounds⟩ | ⟨types, i, rfl, hi, hnonneg, htype⟩ := hcases
  · exact .inl ⟨length, indexType, s₁.scope, h.1.1, h.2.1, hinteger, hbounds⟩
  · have hscope := scope_of_intLiteral hi h.2.1
    exact .inr ⟨types, i, indexType, hscope ▸ h.1.1, hscope.symm ▸ h.2.1, hi, hnonneg, htype⟩

theorem ensures_elementTarget :
  Ensures s (elementTarget target) fun _ s' => s = s'
  := by
  unfold elementTarget
  split
  · refine .bind_get ?_
    split
    · exact .pure rfl
    · exact .throw
  · exact ensures_fail

theorem ensures_noTuples :
  Ensures s (noTuples target) fun _ s' => s = s'
    ∧ ∀ e ∈ target.accessPath, ∀ types, s.checked.type? e.id ≠ some (.tuple types)
  := by
  refine .bind_get ?_
  dsimp only
  split
  · exact ensures_fail
  · next hnone =>
    refine .pure ⟨rfl, fun e he types htype => hnone (List.any_eq_true.mpr ⟨e, he, ?_⟩)⟩
    rw [show s.checked.exprTypes.type? e.id = _ from htype]

theorem ensures_assignElement (htarget : Ensures s (expr false target) (Finds target s))
    (hindex : ∀ s₁, s₁.Sound n → Ensures s₁ (expr false index) (Finds index s₁))
    (hvalue : ∀ s₁, s₁.Sound n → Ensures s₁ (expr false value) (Finds value s₁)) (hs : s.Sound n)
    (hnumbered : Numbered n (target.preorder ++ index.preorder ++ value.preorder)) :
  Ensures s (form tail id span (.assignElement target index value))
    (FindsForm id (.assignElement target index value) s)
  := by
  simp only [form]
  refine ensures_elementTarget.bind ?_
  rintro _ _ rfl
  refine htarget.bind fun targetType s₁ h₁ => (hindex s₁ (h₁.grown.sound hs)).bind fun indexType s₂ h₂ => ?_
  refine ensures_elementType.bind ?_
  rintro type s₃ ⟨hkept, hinteger, hcases⟩
  refine ensures_noTuples.bind ?_
  rintro _ _ ⟨rfl, htuples⟩
  -- what is known of the target and of the index
  have h₁₂ := (h₁.append Finds.lasts h₂ hnumbered.left).andThen (Finds.lasts.and Finds.lasts) hkept.1
  have htype := Checks.of_known (p := fun c => c.type? target.id = some targetType)
    (h₁₂.mono fun _ _ h => h.1.2.2)
  obtain ⟨length, rfl, hbounds⟩ : ∃ length, targetType = .array type length
      ∧ s₃.checked.Bounds id index length := by
    obtain hcases | ⟨types, i, rfl, -⟩ := hcases
    · exact hcases
    · exact absurd htype (htuples target (Expr.mem_accessPath target) types)
  have h₁₃ : Checks (target.preorder ++ index.preorder) (fun c r =>
      (∀ e ∈ target.accessPath, ∀ types, c.type? e.id ≠ some (.tuple types))
      ∧ HasType c r s.scope target (.array type length) s₁.scope
      ∧ HasType c r s₁.scope index indexType s₂.scope ∧ c.Bounds id index length) s s₃ :=
    h₁₂.mono fun _ _ h => ⟨htuples, h.1.1, h.2.1, hbounds⟩
  refine (hvalue s₃ (h₁₃.grown.sound hs)).bind fun found s₄ h₄ => ?_
  refine (ensures_expectAssignable (HasType.assigns hnumbered.right) (h₁₃.grown.sound hs) h₄.hasType type).bind
    fun _ s₅ h₅ => .pure (.of_typed (by simp [NaturalShape]) ?_)
  refine (h₁₃.append (fun c c' r hagrees h => ?_) h₅.1 hnumbered).mono fun result _ h => ?_
  · have hleft := hagrees.mono (List.subset_append_left target.preorder index.preorder)
    refine ⟨fun e he types => ?_, HasType.lasts _ _ _ hleft h.2.1,
      HasType.lasts _ _ _ (hagrees.mono (List.subset_append_right ..)) h.2.2.1, hagrees.bounds h.2.2.2⟩
    rw [hleft.types e (Expr.mem_preorder_of_mem_accessPath he)]
    exact h.1 e he types
  · rw [FormHasType, h₅.2]
    obtain ⟨⟨htuples, htarget, hindex, hbounds⟩, hvalue⟩ := h
    exact ⟨htuples, type, length, indexType, s₁.scope, s₂.scope, htarget, hindex, hinteger, hbounds,
      hkept.2 ▸ hvalue⟩

/-! ### Scopes, conditionals and loops -/

theorem ensures_condition :
  Ensures s (condition span found) fun _ s' => s = s' ∧ found = .bool
  := by
  unfold condition
  split
  · next h => exact .pure ⟨rfl, h⟩
  · exact .throw

/-- A test, and what is checked after it. -/
theorem ensures_test {k : Unit → Check Ty} {q : Ty → CheckState → Prop} (hs : s.Sound n)
    (htest : Ensures s (expr false test) (Finds test s))
    (hk : ∀ s₁, s₁.Sound n →
      Checks test.preorder (fun c r => HasType c r s.scope test .bool s₁.scope) s s₁ → Ensures s₁ (k ()) q) :
  Ensures s (expr false test >>= fun found => condition test.span found >>= k) q
  := by
  refine htest.bind fun found s₁ h₁ => ensures_condition.bind ?_
  rintro _ _ ⟨rfl, rfl⟩
  exact hk s₁ (h₁.grown.sound hs) h₁.hasType

/-- A part in a scope of its own. -/
theorem ensures_branch {branch : Expr} (hs : s.Sound n)
    (hbranch : ∀ s₁, s₁.Sound n → Ensures s₁ (expr tail branch) (Finds branch s₁)) :
  Ensures s (inScope (expr tail branch)) fun type s' => Checks branch.preorder (fun c r =>
    (∃ inner, HasType c r s.scope branch type inner) ∧ IsNatural c branch type) s s' ∧ s'.scope = s.scope
  := by
  refine ensures_inScope hs (p := fun type c r => (∃ inner, HasType c r s.scope branch type inner)
    ∧ IsNatural c branch type) (fun type c c' r hagrees h => ?_) fun s₁ hs₁ hscope => ?_
  · exact ⟨h.1.imp fun inner => HasType.lasts _ _ _ hagrees, IsNatural.lasts _ _ .none hagrees h.2⟩
  · exact (hbranch s₁ hs₁).mono fun type s₂ h => h.mono fun _ _ h => ⟨⟨s₂.scope, hscope ▸ h.1⟩, h.2⟩

/-- A body in a scope of its own. -/
theorem ensures_innerBody (hs : s.Sound n)
    (hitems : ∀ s₁, s₁.Sound n → Ensures s₁ (body tail false items) (FindsBody items s₁)) :
  Ensures s (inScope (body tail false items)) fun type s' => Checks (preorders items) (fun c r =>
    ∃ inner, BodyHasType c r s.scope items type inner) s s' ∧ s'.scope = s.scope
  := by
  refine ensures_inScope hs (p := fun type c r => ∃ inner, BodyHasType c r s.scope items type inner)
    (fun type c c' r hagrees => ?_) fun s₁ hs₁ hscope => ?_
  · exact Exists.imp fun inner => BodyHasType.lasts _ _ _ hagrees
  · exact (hitems s₁ hs₁).mono fun type s₂ h => h.mono fun _ _ h => ⟨s₂.scope, hscope ▸ h⟩

theorem ensures_scope (hs : s.Sound n)
    (hitems : ∀ s₁, s₁.Sound n → Ensures s₁ (body tail false items) (FindsBody items s₁)) :
  Ensures s (form tail id span (.scope items)) (FindsForm id (.scope items) s)
  := by
  simp only [form]
  refine (ensures_innerBody hs hitems).mono fun type s' h => .of_typed (by simp [NaturalShape]) ?_
  refine h.1.mono fun result _ hbody => ?_
  rw [FormHasType]
  exact ⟨h.2, hbody⟩

theorem ensures_atomic (hs : s.Sound n)
    (hitems : ∀ s₁, s₁.Sound n → Ensures s₁ (body false false items) (FindsBody items s₁)) :
  Ensures s (form tail id span (.atomic items)) (FindsForm id (.atomic items) s)
  := by
  simp only [form]
  refine (ensures_innerBody hs hitems).mono fun type s' h => .of_typed (by simp [NaturalShape]) ?_
  refine h.1.mono fun result _ hbody => ?_
  rw [FormHasType]
  exact ⟨h.2, hbody⟩

theorem ensures_cond_none (hs : s.Sound n) (htest : Ensures s (expr false test) (Finds test s))
    (hthen : ∀ s₁, s₁.Sound n → Ensures s₁ (expr false thenBranch) (Finds thenBranch s₁))
    (hnumbered : Numbered n (test.preorder ++ thenBranch.preorder)) :
  Ensures s (form tail id span (.cond isCheck test thenBranch none))
    (FindsForm id (.cond isCheck test thenBranch none) s)
  := by
  simp only [form]
  refine ensures_test hs htest fun s₁ hs₁ h₁ => (ensures_branch hs₁ hthen).bind fun type s₂ h₂ => ?_
  refine .pure (.of_typed (by simp [NaturalShape]) ?_)
  rw [shapePreorder, optionPreorder, List.append_nil]
  refine (h₁.append HasType.lasts h₂.1 hnumbered).mono fun result _ h => ?_
  rw [FormHasType, h₂.2]
  exact ⟨h.1, type, h.2.1⟩

theorem ensures_branches {thenType elseType : Ty} (hs₀ : s₀.Sound n)
    (hnumbered : Numbered n (thenBranch.preorder ++ elseBranch.preorder))
    (h : Checks (thenBranch.preorder ++ elseBranch.preorder) (fun c r =>
      ((∃ inner, HasType c r scope thenBranch thenType inner) ∧ IsNatural c thenBranch thenType)
        ∧ (∃ inner, HasType c r scope elseBranch elseType inner) ∧ IsNatural c elseBranch elseType) s₀ s) :
  Ensures s (branches thenBranch elseBranch thenType elseType) fun type s' =>
    Checks (thenBranch.preorder ++ elseBranch.preorder) (fun c r =>
      (∃ t inner, HasType c r scope thenBranch t inner ∧ (thenBranch.diverges = true ∨ t = type))
        ∧ ∃ t inner, HasType c r scope elseBranch t inner ∧ (elseBranch.diverges = true ∨ t = type)) s₀ s'
      ∧ s'.scope = s.scope
  := by
  unfold branches
  split
  · next hdiverges =>
    refine .pure ⟨h.mono fun _ _ h => ⟨⟨thenType, h.1.1.imp fun _ h => ⟨h, .inl hdiverges⟩⟩,
      elseType, h.2.1.imp fun _ h => ⟨h, .inr rfl⟩⟩, rfl⟩
  split
  · next hsame =>
    exact .pure ⟨h.mono fun _ _ h => ⟨⟨thenType, h.1.1.imp fun _ h => ⟨h, .inr rfl⟩⟩,
      elseType, h.2.1.imp fun _ h => ⟨h, hsame.imp_right Eq.symm⟩⟩, rfl⟩
  · refine (ensures_common (HasType.assigns_inner hnumbered.left) (HasType.assigns_inner hnumbered.right)
      hnumbered hs₀ h _).mono fun type s' h' => ⟨h'.1.mono fun _ _ h => ?_, h'.2⟩
    exact ⟨⟨type, h.1.imp fun _ h => ⟨h, .inr rfl⟩⟩, type, h.2.imp fun _ h => ⟨h, .inr rfl⟩⟩

theorem ensures_cond_some (hs : s.Sound n) (htest : Ensures s (expr false test) (Finds test s))
    (hthen : ∀ s₁, s₁.Sound n → Ensures s₁ (expr tail thenBranch) (Finds thenBranch s₁))
    (helse : ∀ s₁, s₁.Sound n → Ensures s₁ (expr tail elseBranch) (Finds elseBranch s₁))
    (hnumbered : Numbered n (test.preorder ++ (thenBranch.preorder ++ elseBranch.preorder))) :
  Ensures s (form tail id span (.cond isCheck test thenBranch (some elseBranch)))
    (FindsForm id (.cond isCheck test thenBranch (some elseBranch)) s)
  := by
  simp only [form]
  refine ensures_test hs htest fun s₁ hs₁ h₁ => (ensures_branch hs₁ hthen).bind fun thenType s₂ h₂ => ?_
  refine (ensures_branch (h₂.1.grown.sound hs₁) helse).bind fun elseType s₃ h₃ => ?_
  rw [h₂.2] at h₃
  have h₂₃ := h₂.1.append (fun c c' r hagrees h => ⟨h.1.imp fun inner => HasType.lasts _ _ _ hagrees,
    IsNatural.lasts _ _ .none hagrees h.2⟩) h₃.1 hnumbered.right
  refine (ensures_branches hs₁ hnumbered.right h₂₃).mono fun type s₄ h₄ =>
    .of_typed (by simp [NaturalShape]) ?_
  rw [shapePreorder, optionPreorder, List.append_assoc]
  refine (h₁.append HasType.lasts h₄.1 hnumbered).mono fun result _ h => ?_
  rw [FormHasType, h₄.2, h₃.2]
  exact h

/-- The body of a loop. -/
theorem ensures_loopBody (hs : s.Sound n)
    (hitems : ∀ s₁, s₁.Sound n → Ensures s₁ (body false false items) (FindsBody items s₁)) :
  Ensures s (inLoop (inScope (body false false items))) fun type s' => Checks (preorders items) (fun c r =>
    ∃ inner, BodyHasType c r s.scope items type inner) s s' ∧ s'.scope = s.scope
  := by
  refine ensures_inLoop hs (p := fun type _ c r => ∃ inner, BodyHasType c r s.scope items type inner)
    (q := (· = s.scope)) fun s₁ hs₁ hscope => ?_
  rw [← hscope]
  exact ensures_innerBody hs₁ hitems

theorem ensures_whileLoop {isAsync : Bool} (hs : s.Sound n) (htest : Ensures s (expr false test) (Finds test s))
    (hitems : ∀ s₁, s₁.Sound n → Ensures s₁ (body false false items) (FindsBody items s₁))
    (hnumbered : Numbered n (test.preorder ++ preorders items)) :
  Ensures s (form tail id span (.whileLoop isAsync test items))
    (FindsForm id (.whileLoop isAsync test items) s)
  := by
  simp only [form]
  refine ensures_test hs htest fun s₁ hs₁ h₁ => (ensures_loopBody hs₁ hitems).bind fun type s₂ h₂ =>
    .pure (.of_typed (by simp [NaturalShape]) ?_)
  refine (h₁.append HasType.lasts h₂.1 hnumbered).mono fun result _ h => ?_
  rw [FormHasType, h₂.2]
  exact ⟨h.1, type, h.2⟩

theorem ensures_loop (hs : s.Sound n)
    (hitems : ∀ s₁, s₁.Sound n → Ensures s₁ (body false false items) (FindsBody items s₁)) :
  Ensures s (form tail id span (.loop items)) (FindsForm id (.loop items) s)
  := by
  simp only [form]
  refine (ensures_loopBody hs hitems).bind fun type s₁ h₁ => .pure (.of_typed (by simp [NaturalShape]) ?_)
  refine h₁.1.mono fun result _ h => ?_
  rw [FormHasType]
  exact ⟨h₁.2, type, h⟩

/-- What runs again and again in a loop that counts: the body, and then the step. -/
theorem ensures_round (hs : s.Sound n)
    (hitems : ∀ s₁, s₁.Sound n → Ensures s₁ (body false false items) (FindsBody items s₁))
    (hstep : ∀ s₁, s₁.Sound n → Ensures s₁ (expr false step) (Finds step s₁))
    (hnumbered : Numbered n (preorders items ++ step.preorder)) :
  Ensures s (inLoop do
      let _ ← inScope (body false false items)
      expr false step)
    fun _ s' => Checks (preorders items ++ step.preorder) (fun c r =>
      (∃ t inner, BodyHasType c r s.scope items t inner) ∧ ∃ t inner, HasType c r s.scope step t inner) s s'
  := by
  refine (ensures_inLoop hs (p := fun _ _ c r => (∃ t inner, BodyHasType c r s.scope items t inner)
    ∧ ∃ t inner, HasType c r s.scope step t inner) (q := fun _ => True) fun s₁ hs₁ hscope => ?_).mono
      fun _ _ h => h.1
  refine (ensures_innerBody hs₁ hitems).bind fun t s₂ h₂ =>
    (hstep s₂ (h₂.1.grown.sound hs₁)).mono fun t' s₃ h₃ => ⟨?_, trivial⟩
  have hlasts : Lasts (preorders items) fun c r => ∃ inner, BodyHasType c r s₁.scope items t inner :=
    fun _ _ _ hagrees => Exists.imp fun inner => BodyHasType.lasts _ _ _ hagrees
  refine (h₂.1.append hlasts h₃.hasType hnumbered).mono fun result _ h => ?_
  rw [h₂.2, hscope] at h
  exact ⟨⟨t, h.1⟩, t', s₃.scope, h.2⟩

theorem ensures_forLoop (hs : s.Sound n) (hinit : ∀ s₁, s₁.Sound n → Ensures s₁ (expr false init) (Finds init s₁))
    (htest : ∀ s₁, s₁.Sound n → Ensures s₁ (expr false test) (Finds test s₁))
    (hitems : ∀ s₁, s₁.Sound n → Ensures s₁ (body false false items) (FindsBody items s₁))
    (hstep : ∀ s₁, s₁.Sound n → Ensures s₁ (expr false step) (Finds step s₁))
    (hnumbered : Numbered n (init.preorder ++ test.preorder ++ preorders items ++ step.preorder)) :
  Ensures s (form tail id span (.forLoop init test step items))
    (FindsForm id (.forLoop init test step items) s)
  := by
  rw [List.append_assoc] at hnumbered
  simp only [form]
  refine (ensures_inScope hs (p := fun type c r => FormHasType c r s.scope id (.forLoop init test step items)
    type s.scope) (fun _ => FormHasType.lasts) fun s₁ hs₁ hscope => ?_).mono fun type s' h =>
      .of_typed (by simp [NaturalShape]) (h.2.symm ▸ h.1)
  refine (hinit s₁ hs₁).bind fun t s₂ h₂ => ?_
  have hs₂ := h₂.grown.sound hs₁
  refine ensures_test hs₂ (htest s₂ hs₂) fun s₃ hs₃ h₃ => ?_
  refine (ensures_round hs₃ hitems hstep hnumbered.right).bind fun t' s₄ h₄ => .pure ?_
  have h₂₃ := h₂.hasType.append HasType.lasts h₃ hnumbered.left
  rw [shapePreorder, List.append_assoc]
  refine (h₂₃.append (HasType.lasts.and HasType.lasts) h₄ hnumbered).mono fun result _ h => ?_
  rw [FormHasType, ← hscope]
  exact ⟨rfl, t, s₂.scope, s₃.scope, h.1.1, h.1.2, h.2⟩

/-! ### Jumps -/

theorem ensures_loopJump {jump : StrayJump} :
  Ensures s (loopJump jump span) fun _ s' => s = s'
  := by
  refine .bind_get ?_
  split
  · exact bind_fail
  · exact .pure rfl

theorem ensures_breakLoop :
  Ensures s (form tail id span .breakLoop) (FindsForm id .breakLoop s)
  := by
  simp only [form]
  refine ensures_loopJump.mono ?_
  rintro type _ rfl
  exact .of_typed (by simp [NaturalShape]) ⟨.refl _ _, fun _ _ => by rw [FormHasType]⟩

theorem ensures_continueLoop :
  Ensures s (form tail id span .continueLoop) (FindsForm id .continueLoop s)
  := by
  simp only [form]
  refine ensures_loopJump.mono ?_
  rintro type _ rfl
  exact .of_typed (by simp [NaturalShape]) ⟨.refl _ _, fun _ _ => by rw [FormHasType]⟩

theorem ensures_returning :
  Ensures s (returning span) fun context s' => s = s' ∧ s.context = some context
  := by
  refine .bind_get ?_
  split
  · next context hcontext => exact .pure ⟨rfl, hcontext⟩
  · exact ensures_fail

/-- The first value that is returned settles the result type. -/
theorem grown_infer (found : Ty) (hnone : s.context.bind (·.inferred) = none) :
  s.Grown [] { s with context := s.context.map fun c => { c with inferred := some found } }
  := by
  refine ⟨⟨.refl _ _ _, rfl, ?_, fun t ht => ?_⟩, .refl _⟩
  · exact Option.map_map _ _ _
  · rw [hnone] at ht
    cases ht

theorem ensures_ret_none :
  Ensures s (form tail id span (.ret none)) (FindsForm id (.ret none) s)
  := by
  simp only [form]
  refine ensures_returning.bind ?_
  rintro context _ ⟨rfl, -⟩
  have hkept : ∀ {s'}, s.Grown [] s' → s'.scope = s.scope → FindsForm id (.ret none) s .none s' :=
    fun hgrown hscope => .of_typed (by simp [NaturalShape]) ⟨hgrown, fun _ _ => by rw [FormHasType, hscope]⟩
  have hreturned : ∀ {expected : Ty}, Ensures s (returned span none expected .none >>= fun _ => pure .none)
      (FindsForm id (.ret none) s) := by
    intro expected
    unfold returned
    dsimp only
    split
    · exact .pure (hkept (.refl _ _) rfl)
    · exact .bind_throw
  unfold ret
  split
  · exact hreturned
  · refine .bind_get ?_
    split
    · exact hreturned
    · next hnone => exact .bind_modify (.pure (hkept (grown_infer _ hnone) rfl))

/-- A returned value has the result type of the function around it. -/
theorem ensures_returned {expected : Ty} (hs₀ : s₀.Sound n) (hnumbered : Numbered n value.preorder)
    (h : Finds value s₀ found s) (hexpected : ∀ result, s.Expects result → result = expected) :
  Ensures s (returned span (some value) expected found >>= fun _ => pure .none)
    (FindsForm id (.ret (some value)) s₀)
  := by
  unfold returned
  have hs := h.grown.sound hs₀
  have hvalue : Checks value.preorder (fun c r => HasType c r s₀.scope value found s.scope) s s :=
    ⟨.refl _ _, fun result hresult => (h.known result hresult).1⟩
  refine (ensures_expectAssignable (HasType.assigns hnumbered) hs hvalue expected).bind fun _ s₁ h₁ =>
    .pure (.of_typed (by simp [NaturalShape]) ?_)
  rw [shapePreorder, optionPreorder]
  refine ⟨h.grown.trans h₁.1.grown, fun result hresult => ?_⟩
  obtain rfl := hexpected result (h₁.1.grown.toLearned.expects hresult)
  rw [FormHasType, h₁.2]
  exact h₁.1.known result hresult

theorem ensures_ret_some (hs : s.Sound n) (hnumbered : Numbered n value.preorder)
    (hvalue : Ensures s (expr true value) (Finds value s)) :
  Ensures s (form tail id span (.ret (some value))) (FindsForm id (.ret (some value)) s)
  := by
  simp only [form]
  refine ensures_returning.bind ?_
  rintro context _ ⟨rfl, hcontext⟩
  refine hvalue.bind fun found s₁ h₁ => ?_
  have hdeclared := h₁.grown.declared
  rw [hcontext, Option.map_some] at hdeclared
  obtain ⟨context₁, hcontext₁, hsame⟩ := Option.map_eq_some_iff.mp hdeclared
  unfold ret
  split
  · next result hresult =>
    refine ensures_returned hs hnumbered h₁ fun r hr => hr.1 result ?_
    rw [hcontext₁, Option.bind_some, hsame, hresult]
  · next hundeclared =>
    have hnone : s₁.context.bind (·.declared) = none := by
      rw [hcontext₁, Option.bind_some, hsame, hundeclared]
    refine .bind_get ?_
    split
    · next previous hprevious =>
      exact ensures_returned hs hnumbered h₁ fun r hr => hr.2 hnone previous hprevious
    · next huninferred =>
      refine .bind_modify (.pure (.of_typed (by simp [NaturalShape]) ?_))
      rw [shapePreorder, optionPreorder]
      have hgrown := grown_infer found huninferred
      refine ⟨h₁.grown.trans (hgrown.mono (List.nil_subset _)), fun result hresult => ?_⟩
      obtain rfl : result = found := by
        refine hresult.2 ?_ found ?_
        · simpa [hcontext₁] using hnone
        · simp [hcontext₁]
      rw [FormHasType]
      exact (h₁.known result (hgrown.toLearned.expects hresult)).1

/-! ### Arrays and tuples -/

theorem ensures_array {first : Expr} (hs : s.Sound n) (hfirst : Ensures s (expr false first) (Finds first s))
    (hrest : ∀ s₁, s₁.Sound n → ∀ type, Ensures s₁ (elements type rest) fun _ s₂ =>
      Checks (preorders rest)
        (fun c r => HaveTypes c r s₁.scope rest (List.replicate rest.length type) s₂.scope) s₁ s₂)
    (hnumbered : Numbered n (first.preorder ++ preorders rest)) :
  Ensures s (form tail id span (.array (first :: rest))) (FindsForm id (.array (first :: rest)) s)
  := by
  simp only [form]
  refine hfirst.bind fun type s₁ h₁ => (hrest s₁ (h₁.grown.sound hs) type).bind fun _ s₂ h₂ => .pure ?_
  unfold FindsForm
  rw [shapePreorder, preorders]
  refine (h₁.append Finds.lasts h₂ hnumbered).mono fun result _ h => ?_
  have hitems : HaveTypes s₂.checked result s.scope (first :: rest)
      (List.replicate (first :: rest).length type) s₂.scope := by
    rw [HaveTypes]
    exact ⟨type, _, s₁.scope, rfl, h.1.1, h.2⟩
  refine ⟨by rw [FormHasType]; exact ⟨type, rfl, hitems⟩, fun types hid hparts => ?_⟩
  rw [shapePreorder] at hparts
  have hall : ∀ e ∈ first :: rest, types.type? e.id = some type :=
    fun e he => (hparts e (mem_preorders_of_mem he)).trans (hitems.type?_replicate e he)
  rw [preorders] at hparts
  rw [NaturalShape]
  exact ⟨h.1.2.1.congr first fun part hpart => hparts part (List.mem_append_left _ hpart), type, hid, hall⟩

theorem ensures_tuple
    (hitems : Ensures s (exprs items) fun types s' => Checks (preorders items) (fun c r =>
      HaveTypes c r s.scope items types s'.scope ∧ NaturalAll c.exprTypes items) s s') :
  Ensures s (form tail id span (.tuple items)) (FindsForm id (.tuple items) s)
  := by
  simp only [form]
  refine hitems.bind fun types s₁ h₁ => .pure (h₁.mono fun result _ h => ?_)
  refine ⟨by rw [FormHasType]; exact ⟨types, rfl, h.1⟩, fun table hid hparts => ?_⟩
  rw [shapePreorder] at hparts
  rw [NaturalShape]
  exact ⟨h.2.congr items hparts, types, hid,
    forall₂_type?_congr (fun e he => hparts e (mem_preorders_of_mem he)) h.1.type?_items⟩

theorem ensures_length (htarget : Ensures s (expr false target) (Finds target s)) :
  Ensures s (form tail id span (.length target)) (FindsForm id (.length target) s)
  := by
  simp only [form]
  refine htarget.bind fun type s₁ h₁ => ?_
  split
  · next element length =>
    refine .pure (.of_typed (by simp [NaturalShape]) (h₁.mono fun result _ h => ?_))
    rw [FormHasType]
    exact ⟨rfl, element, length, h.1⟩
  · exact ensures_fail

/-! ### Memory, resources and locks -/

theorem ensures_alloc {size : Expr} (hsize : Ensures s (expr false size) (Finds size s)) :
  Ensures s (form tail id span (.alloc size)) (FindsForm id (.alloc size) s)
  := by
  simp only [form]
  refine hsize.bind fun type s₁ h₁ => ?_
  split
  · next hinteger =>
    refine .pure (.of_typed (by simp [NaturalShape]) (h₁.mono fun result _ h => ?_))
    rw [FormHasType]
    exact ⟨rfl, type, h.1, hinteger⟩
  · exact .bind_throw

/-- A pointer is of the type of pointers. -/
theorem ensures_pointer {shape : Shape Expr} (hs : s.Sound n) (hnumbered : Numbered n pointer.preorder)
    (hshape : shapePreorder shape = pointer.preorder) (hnatural : ∀ types, NaturalShape types id shape)
    (htyped : ∀ c r scope', HasType c r s.scope pointer .ptr scope' → FormHasType c r s.scope id shape .none scope')
    (hpointer : Ensures s (expr false pointer) (Finds pointer s)) :
  Ensures s (do
      let found ← expr false pointer
      expectAssignable .ptr pointer found
      return .none) (FindsForm id shape s)
  := by
  refine hpointer.bind fun found s₁ h₁ => (ensures_expectAssignable (HasType.assigns hnumbered) hs h₁.hasType
    .ptr).bind fun _ s₂ h₂ => .pure (.of_typed hnatural ?_)
  rw [hshape]
  exact h₂.1.mono fun result _ h => h₂.2 ▸ htyped _ _ _ h

theorem ensures_freeable :
  Ensures s (freeable pointer) fun _ s' => s = s'
  := by
  unfold freeable
  split
  · refine .bind_get ?_
    split
    · exact ensures_fail
    · exact .pure rfl
  · exact .pure rfl

theorem ensures_free (hs : s.Sound n) (hnumbered : Numbered n pointer.preorder)
    (hpointer : Ensures s (expr false pointer) (Finds pointer s)) :
  Ensures s (form tail id span (.free pointer)) (FindsForm id (.free pointer) s)
  := by
  simp only [form]
  refine ensures_freeable.bind ?_
  rintro _ _ rfl
  exact ensures_pointer hs hnumbered (by rw [shapePreorder]) (by simp [NaturalShape])
    (fun c r scope' h => by rw [FormHasType]; exact h) hpointer

theorem ensures_withResources {bindings : List (Resource Expr)} (hs : s.Sound n)
    (hbindings : ∀ s₁, s₁.Sound n → Ensures s₁ (resources bindings) fun _ s₂ =>
      Checks (resourcePreorders bindings) (fun c r => ResourcesHaveType c r s₁.scope bindings s₂.scope) s₁ s₂)
    (hitems : ∀ s₁, s₁.Sound n → Ensures s₁ (body false false items) (FindsBody items s₁))
    (hnumbered : Numbered n (resourcePreorders bindings ++ preorders items)) :
  Ensures s (form tail id span (.withResources bindings items)) (FindsForm id (.withResources bindings items) s)
  := by
  simp only [form]
  refine (ensures_inScope hs (p := fun type c r => FormHasType c r s.scope id (.withResources bindings items)
    type s.scope) (fun _ => FormHasType.lasts) fun s₁ hs₁ hscope => ?_).mono fun type s' h =>
      .of_typed (by simp [NaturalShape]) (h.2.symm ▸ h.1)
  refine (hbindings s₁ hs₁).bind fun _ s₂ h₂ => (hitems s₂ (h₂.grown.sound hs₁)).mono fun type s₃ h₃ => ?_
  refine (h₂.append ResourcesHaveType.lasts h₃ hnumbered).mono fun result _ h => ?_
  rw [FormHasType, ← hscope]
  exact ⟨rfl, s₂.scope, s₃.scope, h.1, h.2⟩

theorem ensures_mutex_none {op : MutexOp} :
  Ensures s (form tail id span (.mutex op none)) (FindsForm id (.mutex op none) s)
  := by
  cases op with
  | create =>
    simp only [form]
    refine .pure (.of_typed (by simp [NaturalShape]) ⟨.refl _ _, fun _ _ => ?_⟩)
    rw [FormHasType]
    exact ⟨rfl, rfl, rfl⟩
  | lock | unlock =>
    simp only [form]
    exact ensures_fail

theorem ensures_mutex_some {op : MutexOp} {handle : Expr} (hop : op ≠ .create) (hs : s.Sound n)
    (hnumbered : Numbered n handle.preorder)
    (hhandle : Ensures s (expr false handle) (Finds handle s)) :
  Ensures s (form tail id span (.mutex op (some handle))) (FindsForm id (.mutex op (some handle)) s)
  := by
  have htyped : ∀ c r scope', HasType c r s.scope handle .ptr scope' →
      FormHasType c r s.scope id (.mutex op (some handle)) .none scope' := by
    intro c r scope' h
    rw [FormHasType]
    exact ⟨hop, h⟩
  have hpointer := ensures_pointer hs hnumbered (by rw [shapePreorder, optionPreorder])
    (by simp [NaturalShape]) htyped hhandle
  cases op with
  | create => exact absurd rfl hop
  | lock | unlock =>
    simp only [form]
    exact hpointer

/-! ### Lists -/

theorem ensures_body_nil :
  Ensures s (body tail jumped []) (FindsBody [] s)
  := by
  simp only [body]
  exact .pure ⟨.refl _ _, fun _ _ => by rw [BodyHasType]⟩

theorem ensures_body_cons (hs : s.Sound n)
    (he : ∀ s₁, s₁.Sound n → Ensures s₁ (expr (tail && rest.isEmpty) e) (Finds e s₁))
    (hrest : ∀ s₁, s₁.Sound n → Ensures s₁ (body tail e.diverges rest) (FindsBody rest s₁))
    (hnumbered : Numbered n (e.preorder ++ preorders rest)) :
  Ensures s (body tail jumped (e :: rest)) (FindsBody (e :: rest) s)
  := by
  simp only [body]
  refine .bind_ite (m := s.Kept) (fun _ => ensures_warn _ _) (fun _ => .refl s) fun s₁ h₁ => ?_
  refine (he s₁ (h₁.1.sound hs)).bind fun type s₂ h₂ => ?_
  unfold FindsBody
  rw [preorders]
  split
  · next hempty =>
    obtain rfl := List.isEmpty_iff.mp hempty
    rw [preorders, List.append_nil]
    refine .pure ((Checks.after h₁.1 h₂).mono fun result _ h => ?_)
    rw [BodyHasType, ← h₁.2]
    exact ⟨type, s₂.scope, h.1, by simp⟩
  · next hempty =>
    refine (hrest s₂ (h₂.grown.sound (h₁.1.sound hs))).mono fun type' s₃ h₃ => ?_
    refine (Checks.after h₁.1 (h₂.hasType.append HasType.lasts h₃ hnumbered)).mono fun result _ h => ?_
    rw [BodyHasType, ← h₁.2]
    exact ⟨type, s₂.scope, h.1, by rw [if_neg hempty]; exact h.2⟩

theorem ensures_exprs_cons (hs : s.Sound n) (he : Ensures s (expr false e) (Finds e s))
    (hrest : ∀ s₁, s₁.Sound n → Ensures s₁ (exprs rest) fun types s₂ => Checks (preorders rest) (fun c r =>
      HaveTypes c r s₁.scope rest types s₂.scope ∧ NaturalAll c.exprTypes rest) s₁ s₂)
    (hnumbered : Numbered n (e.preorder ++ preorders rest)) :
  Ensures s (exprs (e :: rest)) fun types s' => Checks (preorders (e :: rest)) (fun c r =>
    HaveTypes c r s.scope (e :: rest) types s'.scope ∧ NaturalAll c.exprTypes (e :: rest)) s s'
  := by
  simp only [exprs]
  refine he.bind fun type s₁ h₁ => (hrest s₁ (h₁.grown.sound hs)).bind fun types s₂ h₂ => .pure ?_
  rw [preorders]
  refine (h₁.append Finds.lasts h₂ hnumbered).mono fun result _ h => ?_
  rw [HaveTypes, NaturalAll]
  exact ⟨⟨type, types, s₁.scope, rfl, h.1.1, h.2.1⟩, h.1.2.1, h.2.2⟩

theorem ensures_elements_cons (hs : s.Sound n) (he : Ensures s (expr false e) (Finds e s))
    (hrest : ∀ s₁, s₁.Sound n → Ensures s₁ (elements type rest) fun _ s₂ => Checks (preorders rest) (fun c r =>
      HaveTypes c r s₁.scope rest (List.replicate rest.length type) s₂.scope) s₁ s₂)
    (hnumbered : Numbered n (e.preorder ++ preorders rest)) :
  Ensures s (elements type (e :: rest)) fun _ s' => Checks (preorders (e :: rest)) (fun c r =>
    HaveTypes c r s.scope (e :: rest) (List.replicate (e :: rest).length type) s'.scope) s s'
  := by
  simp only [elements]
  refine he.bind fun found s₁ h₁ => (ensures_expectAssignable (HasType.assigns hnumbered.left) hs h₁.hasType
    type).bind fun _ s₂ h₂ => (hrest s₂ (h₂.1.grown.sound hs)).mono fun _ s₃ h₃ => ?_
  rw [preorders]
  refine (h₂.1.append HasType.lasts h₃ hnumbered).mono fun result _ h => ?_
  rw [HaveTypes]
  exact ⟨type, _, s₁.scope, rfl, h.1, h₂.2 ▸ h.2⟩

theorem ensures_arguments_cons {done : List Demand} {params : List Ty} (hs : s.Sound n) (hσ : σ.Follows done)
    (harg : Ensures s (expr false arg) (Finds arg s))
    (hargs : ∀ s₁, s₁.Sound n → ∀ {σ done}, σ.Follows done → Ensures s₁ (arguments σ params args)
      (FindsArguments params args done s₁))
    (hnumbered : Numbered n (arg.preorder ++ preorders args)) :
  Ensures s (arguments σ (param :: params) (arg :: args)) (FindsArguments (param :: params) (arg :: args) done s)
  := by
  simp only [arguments]
  refine harg.bind fun found s₁ h₁ => (ensures_argument hs hnumbered.left h₁ hσ).bind ?_
  rintro σ₁ s₂ ⟨type, new, hmatches, h₂⟩
  refine (hargs s₂ (h₂.grown.sound hs) hmatches.1).mono ?_
  rintro σ' s₃ ⟨types, new', hfollows, htypes, h₃⟩
  rw [List.append_assoc] at hfollows htypes
  refine ⟨type :: types, new ++ new', hfollows, fun τ all hτ hall => ?_, ?_⟩
  · have hdone : done ++ new ⊆ all := fun d hd => hall (by
      rw [← List.append_assoc]
      exact List.mem_append_left _ hd)
    rw [List.map_cons, hmatches.2 τ all hτ hdone, htypes τ all hτ hall]
  · rw [preorders]
    refine (h₂.append HasType.lasts h₃ hnumbered).mono fun result _ h => ?_
    rw [HaveTypes]
    exact ⟨type, types, s₂.scope, rfl, h.1, h.2⟩

/-- A resource is a pointer, and a local. -/
theorem ensures_resource :
  Ensures s (resource text span init found) fun _ s' =>
    found = .ptr ∧ s.Grown [] s' ∧ s'.scope = (text, ⟨.ptr, false⟩) :: s.scope
  := by
  unfold resource
  split
  · exact bind_fail
  · next hfound =>
    refine (ensures_declare (by rfl)).mono fun _ s' h => ⟨not_not.mp hfound, h⟩

theorem ensures_resources_cons {rest : List (Resource Expr)} (hs : s.Sound n)
    (hinit : Ensures s (expr false init) (Finds init s))
    (hrest : ∀ s₁, s₁.Sound n → Ensures s₁ (resources rest) fun _ s₂ =>
      Checks (resourcePreorders rest) (fun c r => ResourcesHaveType c r s₁.scope rest s₂.scope) s₁ s₂)
    (hnumbered : Numbered n (init.preorder ++ resourcePreorders rest)) :
  Ensures s (resources (⟨text, init, span⟩ :: rest)) fun _ s' =>
    Checks (resourcePreorders (⟨text, init, span⟩ :: rest))
      (fun c r => ResourcesHaveType c r s.scope (⟨text, init, span⟩ :: rest) s'.scope) s s'
  := by
  simp only [resources]
  refine hinit.bind fun found s₁ h₁ => ensures_resource.bind ?_
  rintro _ s₂ ⟨rfl, hgrown, hscope⟩
  have h₂ := h₁.hasType.andThen HasType.lasts hgrown
  refine (hrest s₂ (h₂.grown.sound hs)).mono fun _ s₃ h₃ => ?_
  rw [resourcePreorders]
  refine (h₂.append HasType.lasts h₃ hnumbered).mono fun result _ h => ?_
  rw [ResourcesHaveType]
  exact ⟨s₁.scope, h.1, hscope ▸ h.2⟩

end

end Check

end FormCompiler
