import FormCompiler.Proofs.Typing.Forms

/-!
# Checked expressions and functions

The checker is sound: an expression that is checked without a problem is typed, as long as no identifier
is used twice. The induction is over the expression, and the lemmas of `Proofs.Typing.Forms` are its cases.

What the check of an item does to what has been found out before is `CheckedModule.Later`: it gives types
to its own expressions, and it may find the result type of a function, but does not change one. A function
that is checked is typed, with the result type that its signature has in the end.
-/

namespace FormCompiler

open CheckState

/-! ## Expressions -/

namespace Check

section

variable {n : Nat}

mutual

/-- An expression that is checked is typed. -/
theorem ensures_expr (tail : Bool) : ∀ (e : Expr) {s : CheckState}, s.Sound n → Numbered n e.preorder →
    Ensures s (expr tail e) (Finds e s)
  | .node id span shape, s, hs, hnumbered => by
    have hshape : Numbered n (shapePreorder shape) := by
      rw [Expr.preorder] at hnumbered
      exact hnumbered.tail
    refine ensures_node hs hnumbered (ensures_form tail id span shape hs hshape fun handle heq => ?_)
    have hparsed : shape.IsParsed := hnumbered.shapes _ (Expr.mem_preorder _)
    rw [heq] at hparsed
    exact hparsed

/-- A form that is checked is typed. -/
theorem ensures_form (tail : Bool) (id : Nat) (span : Span) : ∀ (shape : Shape Expr) {s : CheckState},
    s.Sound n → Numbered n (shapePreorder shape) → (∀ handle, shape ≠ .mutex .create (some handle)) →
    Ensures s (form tail id span shape) (FindsForm id shape s)
  | .literal value, _, _, _, _ => ensures_literal value
  | .name text, _, hs, _, _ => ensures_name hs text
  | .call text args, _, hs, hnumbered, _ => by
    rw [shapePreorder] at hnumbered
    refine ensures_call_form (fun _ hs₁ params hlength => ?_) hs
    refine (ensures_arguments params args hs₁ hnumbered hlength Substitution.follows_empty).mono ?_
    rintro σ s₂ ⟨types, new, hfollows, htypes, h⟩
    exact (htypes σ _ hfollows (List.Subset.refl _)).symm ▸ h
  | .binary op lhs rhs, _, hs, hnumbered, _ => by
    rw [shapePreorder] at hnumbered
    exact ensures_binary (ensures_expr false lhs hs hnumbered.left)
      (fun _ hs₁ => ensures_expr false rhs hs₁ hnumbered.right) hs hnumbered
  | .unary op operand, _, hs, hnumbered, _ => by
    rw [shapePreorder] at hnumbered
    exact ensures_unary (ensures_expr false operand hs hnumbered)
  | .declare isMutable text written init, _, hs, hnumbered, _ => by
    rw [shapePreorder] at hnumbered
    exact ensures_declareLocal (ensures_expr false init hs hnumbered) hs hnumbered
  | .assign text value, _, hs, hnumbered, _ => by
    rw [shapePreorder] at hnumbered
    exact ensures_assign (ensures_expr false value hs hnumbered) hs hnumbered
  | .assignElement target index value, _, hs, hnumbered, _ => by
    rw [shapePreorder] at hnumbered
    exact ensures_assignElement (ensures_expr false target hs hnumbered.left.left)
      (fun _ hs₁ => ensures_expr false index hs₁ hnumbered.left.right)
      (fun _ hs₁ => ensures_expr false value hs₁ hnumbered.right) hs hnumbered
  | .scope items, _, hs, hnumbered, _ => by
    rw [shapePreorder] at hnumbered
    exact ensures_scope hs fun _ hs₁ => ensures_body tail false items hs₁ hnumbered
  | .cond isCheck test thenBranch none, _, hs, hnumbered, _ => by
    rw [shapePreorder, optionPreorder, List.append_nil] at hnumbered
    exact ensures_cond_none hs (ensures_expr false test hs hnumbered.left)
      (fun _ hs₁ => ensures_expr false thenBranch hs₁ hnumbered.right) hnumbered
  | .cond isCheck test thenBranch (some elseBranch), _, hs, hnumbered, _ => by
    rw [shapePreorder, optionPreorder, List.append_assoc] at hnumbered
    exact ensures_cond_some hs (ensures_expr false test hs hnumbered.left)
      (fun _ hs₁ => ensures_expr tail thenBranch hs₁ hnumbered.right.left)
      (fun _ hs₁ => ensures_expr tail elseBranch hs₁ hnumbered.right.right) hnumbered
  | .whileLoop isAsync test items, _, hs, hnumbered, _ => by
    rw [shapePreorder] at hnumbered
    exact ensures_whileLoop hs (ensures_expr false test hs hnumbered.left)
      (fun _ hs₁ => ensures_body false false items hs₁ hnumbered.right) hnumbered
  | .forLoop init test step items, _, hs, hnumbered, _ => by
    rw [shapePreorder] at hnumbered
    exact ensures_forLoop hs (fun _ hs₁ => ensures_expr false init hs₁ hnumbered.left.left.left)
      (fun _ hs₁ => ensures_expr false test hs₁ hnumbered.left.left.right)
      (fun _ hs₁ => ensures_body false false items hs₁ hnumbered.left.right)
      (fun _ hs₁ => ensures_expr false step hs₁ hnumbered.right) hnumbered
  | .loop items, _, hs, hnumbered, _ => by
    rw [shapePreorder] at hnumbered
    exact ensures_loop hs fun _ hs₁ => ensures_body false false items hs₁ hnumbered
  | .breakLoop, _, _, _, _ => ensures_breakLoop
  | .continueLoop, _, _, _, _ => ensures_continueLoop
  | .ret none, _, _, _, _ => ensures_ret_none
  | .ret (some value), _, hs, hnumbered, _ => by
    rw [shapePreorder, optionPreorder] at hnumbered
    exact ensures_ret_some hs hnumbered (ensures_expr true value hs hnumbered)
  | .element target index, _, hs, hnumbered, _ => by
    rw [shapePreorder] at hnumbered
    exact ensures_element (ensures_expr false target hs hnumbered.left)
      (fun _ hs₁ => ensures_expr false index hs₁ hnumbered.right) hs hnumbered
  | .array [], s, _, _, _ => by
    simp only [form]
    exact ensures_fail
  | .array (first :: rest), _, hs, hnumbered, _ => by
    rw [shapePreorder, preorders] at hnumbered
    exact ensures_array hs (ensures_expr false first hs hnumbered.left)
      (fun _ hs₁ type => ensures_elements type rest hs₁ hnumbered.right) hnumbered
  | .tuple items, _, hs, hnumbered, _ => by
    rw [shapePreorder] at hnumbered
    exact ensures_tuple (ensures_exprs items hs hnumbered)
  | .length target, _, hs, hnumbered, _ => by
    rw [shapePreorder] at hnumbered
    exact ensures_length (ensures_expr false target hs hnumbered)
  | .alloc size, _, hs, hnumbered, _ => by
    rw [shapePreorder] at hnumbered
    exact ensures_alloc (ensures_expr false size hs hnumbered)
  | .free pointer, _, hs, hnumbered, _ => by
    rw [shapePreorder] at hnumbered
    exact ensures_free hs hnumbered (ensures_expr false pointer hs hnumbered)
  | .withResources bindings items, _, hs, hnumbered, _ => by
    rw [shapePreorder] at hnumbered
    exact ensures_withResources hs (fun _ hs₁ => ensures_resources bindings hs₁ hnumbered.left)
      (fun _ hs₁ => ensures_body false false items hs₁ hnumbered.right) hnumbered
  | .atomic items, _, hs, hnumbered, _ => by
    rw [shapePreorder] at hnumbered
    exact ensures_atomic hs fun _ hs₁ => ensures_body false false items hs₁ hnumbered
  | .mutex op none, _, _, _, _ => ensures_mutex_none
  | .mutex op (some handle), _, hs, hnumbered, hhandles => by
    rw [shapePreorder, optionPreorder] at hnumbered
    refine ensures_mutex_some ?_ hs hnumbered (ensures_expr false handle hs hnumbered)
    rintro rfl
    exact hhandles handle rfl

/-- A body that is checked is typed. -/
theorem ensures_body (tail jumped : Bool) : ∀ (items : List Expr) {s : CheckState}, s.Sound n →
    Numbered n (preorders items) → Ensures s (body tail jumped items) (FindsBody items s)
  | [], _, _, _ => ensures_body_nil
  | e :: rest, _, hs, hnumbered => by
    rw [preorders] at hnumbered
    exact ensures_body_cons hs (fun _ hs₁ => ensures_expr _ e hs₁ hnumbered.left)
      (fun _ hs₁ => ensures_body tail e.diverges rest hs₁ hnumbered.right) hnumbered

/-- Expressions that are checked are typed. -/
theorem ensures_exprs : ∀ (items : List Expr) {s : CheckState}, s.Sound n → Numbered n (preorders items) →
    Ensures s (exprs items) fun types s' => Checks (preorders items) (fun c r =>
      HaveTypes c r s.scope items types s'.scope ∧ NaturalAll c.exprTypes items) s s'
  | [], _, _, _ => by
    simp only [exprs]
    exact .pure ⟨.refl _ _, fun _ _ => by rw [HaveTypes, NaturalAll]; exact ⟨⟨rfl, rfl⟩, trivial⟩⟩
  | e :: rest, _, hs, hnumbered => by
    rw [preorders] at hnumbered
    exact ensures_exprs_cons hs (ensures_expr false e hs hnumbered.left)
      (fun _ hs₁ => ensures_exprs rest hs₁ hnumbered.right) hnumbered

/-- The items of an array are of one type. -/
theorem ensures_elements (type : Ty) : ∀ (items : List Expr) {s : CheckState}, s.Sound n →
    Numbered n (preorders items) → Ensures s (elements type items) fun _ s' => Checks (preorders items)
      (fun c r => HaveTypes c r s.scope items (List.replicate items.length type) s'.scope) s s'
  | [], _, _, _ => by
    simp only [elements]
    exact .pure ⟨.refl _ _, fun _ _ => by rw [HaveTypes]; exact ⟨rfl, rfl⟩⟩
  | e :: rest, _, hs, hnumbered => by
    rw [preorders] at hnumbered
    exact ensures_elements_cons hs (ensures_expr false e hs hnumbered.left)
      (fun _ hs₁ => ensures_elements type rest hs₁ hnumbered.right) hnumbered

/-- Arguments that are checked have the types of the parameters. -/
theorem ensures_arguments : ∀ (params : List Ty) (args : List Expr) {s : CheckState}, s.Sound n →
    Numbered n (preorders args) → params.length = args.length → ∀ {σ done}, Substitution.Follows σ done →
    Ensures s (arguments σ params args) (FindsArguments params args done s)
  | [], [], _, _, _, _, σ, done, hσ => by
    simp only [arguments]
    refine .pure ⟨[], [], by rwa [List.append_nil], fun _ _ _ _ => rfl, .refl _ _, fun _ _ => ?_⟩
    rw [HaveTypes]
    exact ⟨rfl, rfl⟩
  | param :: params, arg :: args, _, hs, hnumbered, hlength, σ, done, hσ => by
    rw [preorders] at hnumbered
    exact ensures_arguments_cons hs hσ (ensures_expr false arg hs hnumbered.left)
      (fun _ hs₁ => ensures_arguments params args hs₁ hnumbered.right (by simpa using hlength)) hnumbered
  | [], _ :: _, _, _, _, hlength, _, _, _ | _ :: _, [], _, _, _, hlength, _, _, _ => by simp at hlength

/-- Resources that are checked are pointers. -/
theorem ensures_resources : ∀ (bindings : List (Resource Expr)) {s : CheckState}, s.Sound n →
    Numbered n (resourcePreorders bindings) → Ensures s (resources bindings) fun _ s' =>
      Checks (resourcePreorders bindings) (fun c r => ResourcesHaveType c r s.scope bindings s'.scope) s s'
  | [], _, _, _ => by
    simp only [resources]
    exact .pure ⟨.refl _ _, fun _ _ => by rw [ResourcesHaveType]⟩
  | ⟨text, init, span⟩ :: rest, _, hs, hnumbered => by
    rw [resourcePreorders] at hnumbered
    exact ensures_resources_cons hs (ensures_expr false init hs hnumbered.left)
      (fun _ hs₁ => ensures_resources rest hs₁ hnumbered.right) hnumbered

end

end

end Check

/-! ## Symbol tables without types -/

namespace SymbolTable

variable {b : Symbol}

/-- The bindings without their types. -/
def untyped (table : SymbolTable) : List Symbol := table.bindings.map fun s => { s with type := .none }

variable {table table' : SymbolTable}

theorem bindings_untyped {p : Symbol → Prop} (hp : ∀ s : Symbol, p s ↔ p { s with type := .none }) :
  (∀ s ∈ table.bindings, p s) ↔ ∀ s ∈ table.untyped, p s
  := by
  rw [untyped, List.forall_mem_map]
  exact forall₂_congr fun s _ => hp s

/-- Soundness does not depend on types. -/
theorem Sound.congr (h : table.Sound) (huntyped : table'.untyped = table.untyped) :
  table'.Sound
  := by
  refine ⟨?_, ?_⟩
  · have hlayered : ∀ t : SymbolTable, (t.bindings.Pairwise fun s t => t.storage = .stack → s.storage = .stack)
        ↔ t.untyped.Pairwise fun s t => t.storage = .stack → s.storage = .stack :=
      fun t => by rw [untyped, List.pairwise_map]
    rw [hlayered, huntyped, ← hlayered]
    exact h.layered
  · rw [bindings_untyped fun _ => Iff.rfl, huntyped, ← bindings_untyped fun _ => Iff.rfl]
    exact h.isMutable

theorem locals_eq_nil_iff :
  table.locals = [] ↔ ∀ s ∈ table.bindings, s.storage ≠ .stack
  := by simp [locals, localsOf]

theorem locals_congr (huntyped : table'.untyped = table.untyped) (h : table.locals = []) :
  table'.locals = []
  := by
  rw [locals_eq_nil_iff] at h ⊢
  rw [bindings_untyped fun _ => Iff.rfl, huntyped, ← bindings_untyped fun _ => Iff.rfl]
  exact h

theorem untyped_setGlobalType (name : String) (type : Ty) :
  (table.setGlobalType name type).untyped = table.untyped
  := by
  rw [untyped, untyped, bindings, bindings, symbols_setGlobalType, List.map_map, List.map_map]
  exact map_modifyFirst (f := (SymbolChange.setType type).apply) (fun _ => rfl) _ _

theorem mem_bindings_setGlobalType {name : String} {type : Ty} (hb : b ∈ (table.setGlobalType name type).bindings) :
  b ∈ table.bindings ∨ b.name = name
  := by
  rw [bindings, symbols_setGlobalType] at hb
  rw [bindings]
  generalize table.symbols = symbols at hb ⊢
  induction symbols with
  | nil => cases hb
  | cons s symbols ih =>
    rw [modifyFirst] at hb
    split at hb
    · next hname =>
      rw [Bool.and_eq_true, beq_iff_eq, beq_iff_eq] at hname
      rw [List.map_cons] at hb ⊢
      obtain rfl | hb := List.mem_cons.mp hb
      · exact .inr hname.2
      · exact .inl (List.mem_cons_of_mem _ hb)
    · rw [List.map_cons] at hb ⊢
      obtain rfl | hb := List.mem_cons.mp hb
      · exact .inl List.mem_cons_self
      · exact (ih hb).imp_left (List.mem_cons_of_mem _)

theorem mem_bindings_leave (hb : b ∈ table.leave.2.bindings) :
  b ∈ table.bindings
  := by
  by_cases hzero : table.depth = 0
  · rwa [table.leave_of_depth_eq_zero hzero] at hb
  · rw [bindings, (table.leave_of_depth_ne_zero hzero).2.1] at hb
    exact List.map_subset _ (List.dropWhile_sublist _).subset hb

/-- The same names are bound in the same way. -/
theorem exists_mem_of_untyped (huntyped : table'.untyped = table.untyped) (hb : b ∈ table.bindings) :
  ∃ b' ∈ table'.bindings, b'.name = b.name ∧ b'.storage = b.storage
  := by
  have hmem : { b with type := .none } ∈ table'.untyped := huntyped ▸ List.mem_map_of_mem hb
  obtain ⟨b', hb', hsame⟩ := List.mem_map.mp hmem
  have hname := congrArg Symbol.name hsame
  have hstorage := congrArg Symbol.storage hsame
  exact ⟨b', hb', hname, hstorage⟩

theorem leave_congr (hdepth : table'.depth = table.depth) (huntyped : table'.untyped = table.untyped) :
  table'.leave.2.depth = table.leave.2.depth ∧ table'.leave.2.untyped = table.leave.2.untyped
  := by
  by_cases hzero : table.depth = 0
  · rw [table.leave_of_depth_eq_zero hzero, table'.leave_of_depth_eq_zero (hdepth.trans hzero)]
    exact ⟨hdepth, huntyped⟩
  · have hleave : ∀ t : SymbolTable, t.depth = table.depth →
        t.leave.2.depth = table.depth - 1 ∧ t.leave.2.untyped = t.untyped.dropWhile (·.depth == table.depth) := by
      intro t ht
      obtain ⟨-, hsymbols, hleft⟩ := t.leave_of_depth_ne_zero (ht ▸ hzero)
      have hinnermost : t.isInnermost = fun s => s.depth == table.depth := by
        funext s
        rw [isInnermost, ht]
      rw [hleft, ht, untyped, bindings, hsymbols, untyped, bindings, List.map_map, List.map_map, List.dropWhile_map,
        hinnermost]
      exact ⟨rfl, rfl⟩
    obtain ⟨hleft', hbindings'⟩ := hleave table' hdepth
    obtain ⟨hleft, hbindings⟩ := hleave table rfl
    exact ⟨hleft'.trans hleft.symm, by rw [hbindings', hbindings, huntyped]⟩

end SymbolTable

/-! ## Units later on -/

/-- What has been found out later on. -/
structure CheckedModule.Later (ids : List Nat) (c c' : CheckedModule) : Prop where
  types : c.exprTypes.Changes ids c'.exprTypes
  dynamic : ∀ id, c.isDynamicIndex id = true → c'.isDynamicIndex id = true
  signatures : ∀ name, Option.Rel FunctionSig.Refines (c.declared? name) (c'.declared? name)
  instantiations : c.instantiations ⊆ c'.instantiations
  imported : ∃ new, c'.imported = c.imported ++ new
  globals : c'.globals = c.globals

namespace CheckedModule

variable {ids ids' : List Nat} {imports : List FunctionSig} {c c' c'' : CheckedModule}

theorem Gains.later (h : c.Gains ids imports c') :
  c.Later ids c'
  := by
  obtain ⟨new, hnew, -⟩ := h.imported
  exact ⟨h.types, h.dynamic, h.declared?, h.instantiations, ⟨new, hnew⟩, h.globals⟩

theorem Later.refl (ids : List Nat) (c : CheckedModule) :
  c.Later ids c
  := (Gains.refl ids [] c).later

/-- Warnings do not matter. -/
theorem Later.warned (c : CheckedModule) (warnings : List TypeWarning) :
  c.Later [] { c with warnings := warnings }
  := { Later.refl [] c with }

variable (h : c.Later ids c')

include h

theorem Later.trans (h' : c'.Later ids c'') :
  c.Later ids c''
  := by
  have htrans : ∀ {x y z : Option FunctionSig}, Option.Rel FunctionSig.Refines x y →
      Option.Rel FunctionSig.Refines y z → Option.Rel FunctionSig.Refines x z := by
    rintro _ _ _ (hsig | _) (hsig' | _)
    · exact .some (hsig.trans hsig')
    · exact .none
  obtain ⟨new, hnew⟩ := h.imported
  obtain ⟨new', hnew'⟩ := h'.imported
  exact ⟨h.types.trans h'.types, fun id hid => h'.dynamic id (h.dynamic id hid),
    fun name => htrans (h.signatures name) (h'.signatures name),
    fun _ hx => h'.instantiations (h.instantiations hx),
    ⟨new ++ new', by rw [hnew', hnew, List.append_assoc]⟩,
    h'.globals.trans h.globals⟩

theorem Later.mono (hids : ids ⊆ ids') :
  c.Later ids' c'
  := { h with types := h.types.mono hids }

theorem Later.agrees {parts : List Expr} (hparts : List.Disjoint (parts.map Expr.id) ids) :
  c.Agrees parts c'
  := by
  obtain ⟨new, hnew⟩ := h.imported
  refine ⟨fun _ he => h.types.others _ (hparts (List.mem_map_of_mem he)), h.dynamic,
    fun name sig hsig => signature?_of_rel h.signatures hnew hsig, h.instantiations, fun name g hg => ?_⟩
  rwa [global?, h.globals]

/-- A signature that has been found stays, and so does that a name has none. -/
theorem Later.declared? {name : String} {sig : FunctionSig} (hsig : c.declared? name = some sig) :
  ∃ sig', c'.declared? name = some sig' ∧ sig.Refines sig'
  := by
  have hrel := h.signatures name
  cases hsig' : c'.declared? name with
  | none =>
    rw [hsig, hsig'] at hrel
    cases hrel
  | some sig' =>
    rw [hsig, hsig'] at hrel
    obtain ⟨hrefines⟩ := hrel
    exact ⟨sig', rfl, hrefines⟩

theorem Later.declared?_none {name : String} (hnone : c.declared? name = none) :
  c'.declared? name = none
  := by
  have hrel := h.signatures name
  rw [hnone] at hrel
  cases hsig' : c'.declared? name with
  | none => rfl
  | some sig' =>
    rw [hsig'] at hrel
    cases hrel

end CheckedModule

/-! ## Bodies -/

/-- A body has the type of the result of the function, unless that does not matter. -/
def Returns (c : CheckedModule) (result : Ty) (scope : TypeScope) (items : List Expr) : Prop :=
  ∃ type scope', BodyHasType c result scope items type scope'
    ∧ (type = result ∨ result = .none ∨ endsInJump items = true)

theorem Returns.agrees {c c' : CheckedModule} {result : Ty} {scope : TypeScope} {items : List Expr}
    (h : Returns c result scope items) (hagrees : c.Agrees (preorders items) c') :
  Returns c' result scope items
  := by
  obtain ⟨type, scope', hbody, htype⟩ := h
  exact ⟨type, scope', hbody.agrees items hagrees, htype⟩

/-- The result type of a function is known, and otherwise everything is as before. -/
structure CheckState.Settles (name : String) (result : Ty) (s s' : CheckState) : Prop where
  depth : s'.symbols.depth = s.symbols.depth
  untyped : s'.symbols.untyped = s.symbols.untyped
  bindings : ∀ b ∈ s'.symbols.bindings, b ∈ s.symbols.bindings ∨ b.name = name
  imports : s'.imports = s.imports
  imported : s'.checked.imported = s.checked.imported
  names : s'.checked.signatures.map (·.name) = s.checked.signatures.map (·.name)
  later : s.checked.Later [] s'.checked
  result : ∀ sig, s'.checked.declared? name = some sig → sig.result = some result

namespace Check

section

variable {n : Nat} {s s' : CheckState} {sig : FunctionSig} {items : List Expr} {result : Ty}

/-- The result type of a function that had none. -/
theorem ensures_inferResult (hnone : ∀ known, s.checked.declared? sig.name = some known → known.result = none) :
  Ensures s (inferResult sig result) fun _ s' => s.Settles sig.name result s'
  := by
  refine .bind_modify (.modify ⟨SymbolTable.depth_setGlobalType _ _ _, SymbolTable.untyped_setGlobalType _ _,
    fun _ => SymbolTable.mem_bindings_setGlobalType, rfl, rfl, ?_, ?_, fun known hknown => ?_⟩)
  · rw [List.map_map]
    exact List.map_congr_left fun other _ => by
      dsimp only [Function.comp_apply]
      split <;> rfl
  · refine { CheckedModule.Later.refl [] s.checked with signatures := fun name => ?_ }
    rw [CheckedModule.declared?_map fun other => by split <;> rfl]
    cases hfind : s.checked.declared? name with
    | none => exact .none
    | some known =>
      have hsame : known.name = name := by simpa using List.find?_some hfind
      refine .some ?_
      dsimp only
      split
      · next hname =>
        refine ⟨rfl, rfl, rfl, rfl, fun t ht => ?_⟩
        rw [hnone known (hname ▸ hsame ▸ hfind)] at ht
        cases ht
      · exact .refl known
  · rw [CheckedModule.declared?_map fun other => by split <;> rfl] at hknown
    obtain ⟨known', hfind, rfl⟩ := Option.map_eq_some_iff.mp hknown
    have hsame : known'.name = sig.name := by simpa using List.find?_some hfind
    rw [if_pos hsame]

theorem ensures_parameters (params : List ((String × Ty) × Param)) :
  Ensures s (parameters params) fun _ s' =>
    s.Grown [] s' ∧ s'.scope = .ofParams (params.map (·.1)) ++ s.scope
  := by
  induction params generalizing s with
  | nil => exact .pure ⟨.refl _ _, rfl⟩
  | cons param rest ih =>
    obtain ⟨⟨text, type⟩, param⟩ := param
    refine (ensures_declare (by rfl)).bind fun _ s₁ h₁ => ih.mono fun _ s₂ h₂ => ⟨h₁.1.trans h₂.1, ?_⟩
    simp [h₂.2, h₁.2, TypeScope.ofParams, Symbol.ofStorage]

/-- A declared result type is the one that is expected. -/
theorem expects_declared (h : s.context.map (·.declared) = some (some result)) :
  s.Expects result
  := by
  obtain ⟨context, hcontext, hdeclared⟩ := Option.map_eq_some_iff.mp h
  simp [Expects, hcontext, hdeclared]

/-- Without a declared result type, the first value that is returned gives it. -/
theorem expects_inferred (h : s.context.map (·.declared) = some none)
    (hinferred : ∀ t, s.context.bind (·.inferred) = some t → result = t) :
  s.Expects result
  := by
  obtain ⟨context, hcontext, hdeclared⟩ := Option.map_eq_some_iff.mp h
  refine ⟨fun t ht => ?_, fun _ => hinferred⟩
  simp [hcontext, hdeclared] at ht

/-- A function whose body is checked. -/
theorem ensures_function {params : List Param} (hs : s.Sound n) (hnumbered : Numbered n (preorders items))
    (hscope : s.scope = []) (hdeclared : s.context.map (·.declared) = some sig.result)
    (hsig : s.checked.declared? sig.name = some sig) (hparams : sig.params.length = params.length) :
  Ensures s (function sig params items) fun _ s' => ∃ s₁ result,
    s.Grown ((preorders items).map Expr.id) s₁ ∧ Returns s₁.checked result sig.scope items
      ∧ s₁.Settles sig.name result s'
  := by
  refine (ensures_parameters _).bind fun _ s₁ h₁ => ?_
  have hzip : (sig.params.zip params).map (·.1) = sig.params := List.map_fst_zip (Nat.le_of_eq hparams)
  rw [hzip, hscope, List.append_nil, ← FunctionSig.scope] at h₁
  refine (ensures_body true false items (h₁.1.sound hs) hnumbered).bind fun type s₂ h₂ => ?_
  unfold FindsBody at h₂
  rw [h₁.2] at h₂
  have hbody := Checks.after h₁.1 h₂
  -- the signature has the same result type after the check of the body
  have hsettled : ∀ {s₃}, s.Grown ((preorders items).map Expr.id) s₃ → ∀ known,
      s₃.checked.declared? sig.name = some known → known.result = sig.result := by
    intro s₃ hgrown known hknown
    have hplain := CheckedModule.declared?_of_plain hgrown.signatures sig.name
    rw [hknown, hsig, Option.map_some, Option.map_some] at hplain
    have hresult := congrArg FunctionSig.result (Option.some.inj hplain)
    exact hresult
  have hknown : ∀ {s₃}, s.Grown ((preorders items).map Expr.id) s₃ →
      s₃.context.map (·.declared) = some sig.result := fun hgrown => hgrown.declared.trans hdeclared
  have hassigns : ∀ {e : Expr}, items.getLast? = some e → ∀ expected,
      Ensures s₂ (expectAssignable expected e type) fun _ s₃ => s₂.Grown ((preorders items).map Expr.id) s₃
        ∧ Checks (preorders items) (fun c r => BodyHasType c r sig.scope items expected s₂.scope) s s₃ := by
    intro e hlast expected
    refine (ensures_expectAssignable (BodyHasType.assigns hnumbered hlast) (hbody.grown.sound hs)
      ⟨.refl _ _, h₂.known⟩ expected).mono fun _ s₃ h₃ => ⟨h₃.1.grown, ?_⟩
    exact ⟨hbody.grown.trans h₃.1.grown, h₃.1.known⟩
  dsimp only
  cases hresult : sig.result with
  | some result =>
    have hdone : ∀ {t s₃}, Checks (preorders items) (fun c r =>
        BodyHasType c r sig.scope items t s₂.scope) s s₃ →
        (t = result ∨ result = .none ∨ endsInJump items = true) → ∃ s₁ result,
        s.Grown ((preorders items).map Expr.id) s₁ ∧ Returns s₁.checked result sig.scope items
          ∧ s₁.Settles sig.name result s₃ := by
      intro t s₃ h₃ htype
      have hexpects := expects_declared ((hknown h₃.grown).trans (congrArg some hresult))
      refine ⟨s₃, result, h₃.grown, ⟨t, s₂.scope, h₃.known result hexpects, htype⟩, rfl, rfl,
        fun _ => .inl, rfl, rfl, rfl, .refl _ _, fun known h => (hsettled h₃.grown known h).trans hresult⟩
    dsimp only
    split
    · next hjump =>
      refine .pure (hdone hbody ?_)
      rw [Bool.or_eq_true, decide_eq_true_iff] at hjump
      exact .inr hjump.symm
    · split
      · next e hlast => exact (hassigns hlast result).mono fun _ s₃ h₃ => hdone h₃.2 (.inl rfl)
      · exact .throw
  | none =>
    have hdone : ∀ {t result s₃}, Checks (preorders items) (fun c r =>
        BodyHasType c r sig.scope items t s₂.scope) s s₃ →
        (∀ t, s₃.context.bind (·.inferred) = some t → result = t) →
        (t = result ∨ result = .none ∨ endsInJump items = true) →
        Ensures s₃ (inferResult sig result) fun _ s' => ∃ s₁ result,
          s.Grown ((preorders items).map Expr.id) s₁ ∧ Returns s₁.checked result sig.scope items
            ∧ s₁.Settles sig.name result s' := by
      intro t result s₃ h₃ hinferred htype
      have hexpects := expects_inferred ((hknown h₃.grown).trans (congrArg some hresult)) hinferred
      refine (ensures_inferResult fun known h => (hsettled h₃.grown known h).trans hresult).mono fun _ s' h' => ?_
      exact ⟨s₃, result, h₃.grown, ⟨t, s₂.scope, h₃.known result hexpects, htype⟩, h'⟩
    refine .bind_get ?_
    split
    · next result hinferred =>
      have hsame : ∀ t, s₂.context.bind (·.inferred) = some t → result = t :=
        fun t ht => Option.some.inj (hinferred.symm.trans ht)
      split
      · next e hlast =>
        split
        · next hjump =>
          exact hdone hbody hsame (.inr (.inr hjump))
        · refine (hassigns hlast result).bind fun _ s₃ h₃ => hdone h₃.2 (fun t ht => ?_) (.inl rfl)
          exact Option.some.inj ((h₃.1.inferred result hinferred).symm.trans ht)
      · next hlast =>
        obtain rfl := List.getLast?_eq_none_iff.mp hlast
        refine hdone (hbody.mono fun r _ h => ?_) hsame (.inl rfl)
        rw [BodyHasType] at h ⊢
        exact h
    · next hinferred =>
      refine hdone hbody (fun t ht => ?_) ?_
      · rw [hinferred] at ht
        cases ht
      · split
        · next hjump => exact .inr (.inl rfl)
        · exact .inl rfl

/-- A function is checked in a scope of its own. -/
theorem ensures_inScope_function {params : List Param} (hs : s.Sound n)
    (hnumbered : Numbered n (preorders items)) (hscope : s.scope = [])
    (hdeclared : s.context.map (·.declared) = some sig.result)
    (hsig : s.checked.declared? sig.name = some sig) (hparams : sig.params.length = params.length) :
  Ensures s (inScope (function sig params items)) fun _ s' => s'.Sound n ∧ s'.scope = []
    ∧ s.checked.Later ((preorders items).map Expr.id) s'.checked
    ∧ ∀ known, s'.checked.declared? sig.name = some known → FunctionHasType s'.checked known items
  := by
  refine .bind_modify ((ensures_function hs.enter hnumbered hscope hdeclared hsig hparams).bind ?_)
  rintro _ s₂ ⟨s₁, result, hgrown, hreturns, hsettles⟩
  refine ensures_leaveScope.bind ?_
  rintro _ s₃ ⟨hsymbols, hcontext, himports, warnings, hchecked⟩
  have hs₁ := hgrown.sound hs.enter
  -- nothing is left of the scope of the function
  obtain ⟨hdepth, hbindings⟩ := SymbolTable.leave_of_enter hgrown.symbols
  obtain ⟨hdepth', huntyped'⟩ := SymbolTable.leave_congr hsettles.depth hsettles.untyped
  rw [← hsymbols] at hdepth' huntyped'
  have huntyped : s₃.symbols.untyped = s.symbols.untyped := by
    rw [huntyped', SymbolTable.untyped, SymbolTable.untyped, hbindings]
  have hwarned : s₂.checked.Later [] s₃.checked := hchecked ▸ .warned _ _
  have hleft : s₁.checked.Later [] s₃.checked := hsettles.later.trans hwarned
  have hlater : s.checked.Later ((preorders items).map Expr.id) s₃.checked :=
    hgrown.toGains.later.trans (hleft.mono (List.nil_subset _))
  have hbound : ∀ sig ∈ s₃.checked.signatures, ∃ b ∈ s₃.symbols.bindings, b.name = sig.name := by
    intro known hknown
    have hmem : known.name ∈ s₁.checked.signatures.map (·.name) := by
      rw [← hsettles.names]
      rw [hchecked] at hknown
      exact List.mem_map_of_mem hknown
    obtain ⟨known', hknown', hname⟩ := List.mem_map.mp hmem
    have hplain : known'.plain ∈ s.checked.signatures.map FunctionSig.plain :=
      hgrown.signatures ▸ List.mem_map_of_mem hknown'
    obtain ⟨first, hfirst, hsame⟩ := List.mem_map.mp hplain
    obtain ⟨b, hb, hbname⟩ := hs.bound first hfirst
    obtain ⟨b', hb', hbname', -⟩ := SymbolTable.exists_mem_of_untyped huntyped hb
    have hfirstName : first.name = known'.name := (FunctionSig.Refines.of_plain hsame.symm).name.symm
    exact ⟨b', hb', by rw [hbname', hbname, hfirstName, hname]⟩
  have hconstants : ∀ b ∈ s₃.symbols.bindings, b.storage = .constant →
      s₃.checked.declared? b.name = none ∧ ∃ g, s₃.checked.global? b.name = some g ∧ g.type = b.type := by
    intro b hb hstorage
    obtain ⟨b', hb', hname', hstorage'⟩ := SymbolTable.exists_mem_of_untyped huntyped.symm hb
    -- the function is not a constant, so that the type of the constant is still the same
    have hnone := (hs.constants b' hb' (hstorage'.trans hstorage)).1
    rw [hname'] at hnone
    have hmem : b ∈ s₁.symbols.bindings := by
      obtain hmem | hname := hsettles.bindings b (SymbolTable.mem_bindings_leave (hsymbols ▸ hb))
      · exact hmem
      · rw [hname, hsig] at hnone
        cases hnone
    obtain ⟨-, g, hg, htype⟩ := hs₁.constants b hmem hstorage
    exact ⟨hlater.declared?_none hnone, g, by rwa [CheckedModule.global?, hleft.globals], htype⟩
  refine .pure ⟨⟨?_, hs.symbols.congr huntyped, hbound, ?_, hconstants⟩,
    SymbolTable.locals_congr huntyped hscope, hlater, fun known hknown => ?_⟩
  · exact hlater.types.length.trans hs.types
  · rw [himports, hsettles.imports, hchecked]
    exact hsettles.imported ▸ hs₁.imported
  · have hrefines := hlater.signatures sig.name
    rw [hsig, hknown] at hrefines
    obtain ⟨hrefines⟩ := hrefines
    obtain ⟨type, scope', hbody, htype⟩ := hreturns.agrees (hleft.agrees (by simp))
    rw [hchecked] at hknown
    exact ⟨result, type, scope', hsettles.result known hknown, hrefines.scope ▸ hbody, htype⟩

end

end Check

end FormCompiler
