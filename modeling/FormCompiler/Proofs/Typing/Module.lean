import FormCompiler.Lowering.Module
import FormCompiler.Proofs.Flow.Verify
import FormCompiler.Proofs.Typing.Function
import FormCompiler.Proofs.Typing.Rounds

/-!
# Checked units

If a unit is checked without a problem, all its functions are typed, and so are the expressions outside of
functions (`typed_checkModule`). A problem that is found is never forgotten, so all checks have succeeded;
then each round of the checker keeps what the rounds before have found out, as no two items share an
expression.
-/

namespace FormCompiler

open CheckState

variable {table table' : SymbolTable} {name : String} {c c' : CheckedModule} {ids : List Nat} {item : Item}
    {g : GlobalConst} {items : List Item} {m : Module} {imports : List FunctionSig}

/-! ## Problems -/

/-- No problem has been found. -/
def CheckState.IsClean (s : CheckState) : Prop := s.checked.problems = []

namespace CheckState

variable {s : CheckState}

/-- If there is no problem after a check, the check has succeeded. -/
theorem IsClean.of_attempt {depth : Nat} {check : Check Unit} (hcheck : Respects (· = ·) check)
    (h : (s.attempt depth check).IsClean) :
  s.IsClean ∧ check s = (.ok (), s.attempt depth check)
  := by
  unfold attempt at h ⊢
  cases hrun : check s with
  | mk outcome s' =>
    have hrun' : (ExceptT.run check).run s = (outcome, s') := hrun
    have hproblems := hcheck.problems_eq s
    rw [hrun] at hproblems
    rw [hrun'] at h ⊢
    cases outcome with
    | ok _ => exact ⟨hproblems.symm.trans h, rfl⟩
    | error problem => simp [IsClean] at h

/-- What every step of a round keeps true holds after the round, if no problem has been found. -/
theorem IsClean.of_foldl {step : CheckState → Item → CheckState} {p : List Item → CheckState → Prop}
    {items : List Item}
    (hstep : ∀ done item rest s, items = done ++ item :: rest → (step s item).IsClean →
      s.IsClean ∧ (p done s → p (done ++ [item]) (step s item)))
    (h : (items.foldl step s).IsClean) :
  s.IsClean ∧ (p [] s → p items (items.foldl step s))
  := by
  suffices hrest : ∀ rest done s, items = done ++ rest → (rest.foldl step s).IsClean →
      s.IsClean ∧ (p done s → p items (rest.foldl step s)) from hrest items [] s rfl h
  intro rest
  induction rest with
  | nil =>
    rintro done s rfl h
    exact ⟨h, fun hp => by simpa using hp⟩
  | cons item rest ih =>
    intro done s hitems h
    obtain ⟨hclean, hlater⟩ := ih (done ++ [item]) (step s item) (by simpa using hitems) h
    obtain ⟨hclean, hnext⟩ := hstep done item rest s hitems hclean
    exact ⟨hclean, fun hp => hlater (hnext hp)⟩

end CheckState

/-! ## Signatures -/

/-- The outermost scope binds a name only once. -/
theorem SymbolTable.of_declare_outermost (hdepth : table.depth = 0) {s : Symbol} {hidden : Option Span}
    (h : table.declare s = .ok (hidden, table')) :
  table.peek? s.name = none ∧ table'.symbols = { s with depth := table.depth } :: table.symbols
  := by
  rw [declare_eq] at h
  split at h
  · next hunbound =>
    obtain ⟨-, rfl⟩ := Prod.mk.inj (Except.ok.inj h)
    exact ⟨hunbound, table.symbols_push s⟩
  · next bound hbound =>
    have hle := table.depth_le_of_mem_symbols (of_peek? hbound).1
    have hinnermost : table.isInnermost bound = true := by
      rw [isInnermost, beq_iff_eq, hdepth]
      exact Nat.le_zero.mp (hdepth ▸ hle)
    rw [if_pos hinnermost] at h
    cases h

/-- No function is being checked, and no local is in scope. -/
structure CheckState.Outside (n : Nat) (s : CheckState) : Prop extends s.Sound n where
  scope : s.scope = []
  context : s.context = none

/-- Only the outermost scope is open, and it binds all constants that have a value. -/
structure CheckState.Declaring (n : Nat) (s : CheckState) : Prop extends s.Outside n where
  depth : s.symbols.depth = 0
  globals : ∀ g ∈ s.checked.globals, ∃ b ∈ s.symbols.bindings, b.name = g.name

/-- A global of the outermost scope leaves the table of symbols as it has to be. -/
theorem SymbolTable.Sound.declareGlobal {symbol : Symbol} {hidden : Option Span} (hsound : table.Sound)
    (hlocals : table.locals = []) (hglobal : symbol.storage ≠ .stack) (hmutable : symbol.isMutable = false)
    (h : table.declare symbol = .ok (hidden, table')) :
  table'.Sound ∧ table'.locals = []
  := by
  obtain ⟨hdepth, hbindings⟩ := of_declare h
  rw [locals_eq_nil_iff] at hlocals ⊢
  rw [hbindings]
  refine ⟨⟨?_, ?_⟩, List.forall_mem_cons.mpr ⟨hglobal, hlocals⟩⟩
  · rw [hbindings]
    exact List.pairwise_cons.mpr ⟨fun t ht hstack => absurd hstack (hlocals t ht), hsound.layered⟩
  · rw [hbindings]
    refine List.forall_mem_cons.mpr ⟨fun h => ?_, hsound.isMutable⟩
    cases hmutable.symm.trans h

/-- A name that is not bound is not that of a binding. -/
theorem SymbolTable.not_mem_of_peek? (h : table.peek? name = none) :
  ∀ b ∈ table.bindings, b.name ≠ name
  := not_mem_of_lookup_error (e := .unbound) (by rw [lookup_eq, h])

/-- A name has the signature of a declaration, the result type of which may have been found. -/
def CheckedModule.Signs (c : CheckedModule) (kind : FunctionKind) (name : String) (params : List Param)
    (result : Option Ty) (span : Span) : Prop :=
  ∃ sig sig', FunctionSig.ofDecl kind name params result span = .ok sig
    ∧ c.declared? name = some sig' ∧ sig.Refines sig'

/-- What an item declares has a signature. -/
def Item.Signed (c : CheckedModule) : Item → Prop
  | .function decl => c.Signs .function decl.name decl.params decl.result decl.span
  | .operator decl => c.Signs .operator decl.symbol decl.params decl.result decl.span
  | .foreign decl => ∀ f ∈ decl.functions, c.Signs (.foreign decl.library) f.name f.params f.result f.span
  | _ => True

/-- All signatures are still there. -/
def CheckedModule.Declares (c c' : CheckedModule) : Prop :=
  ∀ name sig, c.declared? name = some sig → ∃ sig', c'.declared? name = some sig' ∧ sig.Refines sig'

theorem CheckedModule.Declares.refl (c : CheckedModule) :
  c.Declares c
  := fun _ sig h => ⟨sig, h, .refl sig⟩

theorem CheckedModule.Declares.trans {c'' : CheckedModule} (h : c.Declares c') (h' : c'.Declares c'') :
  c.Declares c''
  := by
  intro name sig hsig
  obtain ⟨sig', hsig', hrefines⟩ := h name sig hsig
  obtain ⟨sig'', hsig'', hrefines'⟩ := h' name sig' hsig'
  exact ⟨sig'', hsig'', hrefines.trans hrefines'⟩

theorem CheckedModule.Later.declares (h : c.Later ids c') :
  c.Declares c'
  := fun _ _ => h.declared?

theorem CheckedModule.Signs.declares {kind : FunctionKind} {params : List Param} {result : Option Ty} {span : Span}
    (h : c.Signs kind name params result span) (h' : c.Declares c') :
  c'.Signs kind name params result span
  := by
  obtain ⟨sig, sig', hsig, hsig', hrefines⟩ := h
  obtain ⟨sig'', hsig'', hrefines'⟩ := h' name sig' hsig'
  exact ⟨sig, sig'', hsig, hsig'', hrefines.trans hrefines'⟩

theorem Item.Signed.declares (h : item.Signed c) (h' : c.Declares c') :
  item.Signed c'
  := by
  cases item with
  | function decl | operator decl => exact CheckedModule.Signs.declares h h'
  | foreign decl => exact fun f hf => (h f hf).declares h'
  | _ => trivial

theorem FunctionSig.of_ofDecl {kind : FunctionKind} {params : List Param} {result : Option Ty} {span : Span}
    {sig : FunctionSig} (h : FunctionSig.ofDecl kind name params result span = .ok sig) :
  sig.name = name ∧ sig.params.length = params.length ∧ sig.span = span
  := by
  unfold ofDecl at h
  dsimp only at h
  split at h
  · cases h
  · split at h
    · obtain rfl := Except.ok.inj h
      exact ⟨rfl, List.length_map _, rfl⟩
    · cases h
  · obtain rfl := Except.ok.inj h
    exact ⟨rfl, List.length_map _, rfl⟩

namespace Check

variable {n : Nat} {s : CheckState}

theorem ensures_lift {α : Type} (x : Except TypeProblem α) :
  Ensures s (liftM x : Check α) fun a s' => s = s' ∧ x = .ok a
  := by
  cases x with
  | error e => exact .throw
  | ok a => exact .pure ⟨rfl, rfl⟩

/-- A global is declared. -/
theorem ensures_declareGlobal {symbol : Symbol} (hglobal : symbol.storage ≠ .stack) :
  Ensures s (declare symbol) fun _ s' => ∃ hidden symbols, s.symbols.declare symbol = .ok (hidden, symbols)
    ∧ s' = { s with symbols := symbols }
  := by
  refine .bind_get ?_
  split
  · exact .throw
  · next hidden symbols hdeclare =>
    refine .bind_modify ?_
    cases hidden with
    | none => exact .pure ⟨none, symbols, hdeclare, rfl⟩
    | some outer =>
      dsimp only
      rw [if_neg hglobal]
      exact .pure ⟨some outer, symbols, hdeclare, rfl⟩

theorem ensures_signature {kind : FunctionKind} {text : String} {params : List Param} {result : Option Ty}
    {span : Span} (hs : s.Declaring n) :
  Ensures s (signature kind text params result span) fun _ s' => s'.Declaring n
    ∧ s.checked.Declares s'.checked ∧ s'.checked.globals = s.checked.globals
    ∧ s'.checked.Signs kind text params result span
  := by
  refine (ensures_lift _).bind ?_
  rintro sig _ ⟨rfl, hsig⟩
  obtain ⟨rfl, -, -⟩ := FunctionSig.of_ofDecl hsig
  have hglobal : kind.storage ≠ .stack := by cases kind <;> exact Storage.noConfusion
  have hfunction : kind.storage ≠ .constant := by cases kind <;> exact Storage.noConfusion
  refine (ensures_declareGlobal hglobal).bind ?_
  rintro _ _ ⟨hidden, symbols, hdeclare, rfl⟩
  obtain ⟨hunbound, -⟩ := SymbolTable.of_declare_outermost hs.depth hdeclare
  obtain ⟨hdepth, hbindings⟩ := SymbolTable.of_declare hdeclare
  obtain ⟨hsound, hlocals⟩ := hs.symbols.declareGlobal hs.scope hglobal rfl hdeclare
  have hunnamed := SymbolTable.not_mem_of_peek? hunbound
  have hnew : s.checked.declared? sig.name = none := by
    refine List.find?_eq_none.mpr fun other hother hname => ?_
    obtain ⟨b, hb, hbname⟩ := hs.bound other hother
    exact hunnamed b hb (hbname.trans (beq_iff_eq.mp hname))
  have hkept : ∀ {p : Symbol → Prop}, (∃ b ∈ s.symbols.bindings, p b) → ∃ b ∈ symbols.bindings, p b :=
    fun ⟨b, hb, hp⟩ => ⟨b, hbindings ▸ List.mem_cons_of_mem _ hb, hp⟩
  refine .modify ⟨⟨⟨⟨hs.types, hsound, ?_, hs.imported, ?_⟩, hlocals, hs.context⟩, hdepth.trans hs.depth,
    fun g hg => hkept (hs.globals g hg)⟩, ?_, rfl, sig, sig, hsig, ?_, .refl sig⟩
  · refine List.forall_mem_append.mpr ⟨fun other hother => hkept (hs.bound other hother), ?_⟩
    exact List.forall_mem_singleton.mpr ⟨_, hbindings ▸ List.mem_cons_self, rfl⟩
  · intro b hb hconstant
    change b ∈ symbols.bindings at hb
    rw [hbindings] at hb
    obtain rfl | hb := List.mem_cons.mp hb
    · exact absurd hconstant hfunction
    · obtain ⟨hnone, hg⟩ := hs.constants b hb hconstant
      refine ⟨?_, hg⟩
      change (s.checked.signatures ++ [sig]).find? _ = _
      rw [List.find?_append, show s.checked.signatures.find? _ = _ from hnone]
      have hother : sig.name ≠ b.name := (hunnamed b hb).symm
      simpa using hother
  · intro name other hother
    refine ⟨other, ?_, .refl other⟩
    change (s.checked.signatures ++ [sig]).find? _ = _
    rw [List.find?_append, show s.checked.signatures.find? _ = _ from hother]
    rfl
  · change (s.checked.signatures ++ [sig]).find? _ = _
    rw [List.find?_append, show s.checked.signatures.find? _ = _ from hnew]
    simp

theorem ensures_itemSignatures (hs : s.Declaring n) (item : Item) :
  Ensures s (itemSignatures item) fun _ s' => s'.Declaring n ∧ s.checked.Declares s'.checked
    ∧ s'.checked.globals = s.checked.globals ∧ item.Signed s'.checked
  := by
  cases item with
  | function decl | operator decl => exact ensures_signature hs
  | foreign decl =>
    have hall : ∀ (functions : List ForeignFunction) {s : CheckState}, s.Declaring n →
        Ensures s (functions.forM fun f => signature (.foreign decl.library) f.name f.params f.result f.span)
          fun _ s' => s'.Declaring n ∧ s.checked.Declares s'.checked ∧ s'.checked.globals = s.checked.globals
            ∧ ∀ f ∈ functions, s'.checked.Signs (.foreign decl.library) f.name f.params f.result f.span := by
      intro functions
      induction functions with
      | nil => exact fun hs => .pure ⟨hs, .refl _, rfl, List.forall_mem_nil _⟩
      | cons f functions ih =>
        refine fun hs => (ensures_signature hs).bind fun _ s₁ h₁ => (ih h₁.1).mono fun _ s₂ h₂ => ?_
        refine ⟨h₂.1, h₁.2.1.trans h₂.2.1, h₂.2.2.1.trans h₁.2.2.1, ?_⟩
        exact List.forall_mem_cons.mpr ⟨h₁.2.2.2.declares h₂.2.1, h₂.2.2.2⟩
    exact hall decl.functions hs
  | group name items span | const decl | expr e => exact .pure ⟨hs, .refl _, rfl, trivial⟩

end Check

/-! ## Constants -/

section

variable {globals : String → Option ConstValue} {c : CheckedModule} {result : Ty}

mutual

/-- An expression with a constant value declares nothing. -/
theorem HasType.scope_of_constant : ∀ (e : Expr) {value : ConstValue} {scope scope' : TypeScope} {type : Ty},
    e.constant globals = .ok value → HasType c result scope e type scope' → scope' = scope
  | .node id span shape, value, scope, scope', type, hvalue, h => by
    rw [HasType] at h
    rw [Expr.constant] at hvalue
    exact FormHasType.scope_of_constant id shape hvalue h.2

theorem FormHasType.scope_of_constant (id : Nat) : ∀ (shape : Shape Expr) {value : ConstValue}
    {scope scope' : TypeScope} {type : Ty}, shapeConstant globals shape = .ok value →
    FormHasType c result scope id shape type scope' → scope' = scope
  | shape, _, _, _, _, hvalue, h => by
    cases shape with
    | literal _ =>
      rw [FormHasType] at h
      exact h.2
    | name _ =>
      rw [FormHasType] at h
      exact h.2.2
    | unary op operand =>
      rw [FormHasType] at h
      rw [shapeConstant] at hvalue
      obtain ⟨value, hoperand, -⟩ := Flow.bind_eq_ok.mp hvalue
      exact HasType.scope_of_constant operand hoperand h.1
    | binary op lhs rhs =>
      rw [FormHasType] at h
      rw [shapeConstant] at hvalue
      obtain ⟨left, hleft, hvalue⟩ := Flow.bind_eq_ok.mp hvalue
      obtain ⟨right, hright, -⟩ := Flow.bind_eq_ok.mp hvalue
      obtain ⟨operand, middle, hlhs, hrhs, -⟩ := h
      rw [HasType.scope_of_constant rhs hright hrhs, HasType.scope_of_constant lhs hleft hlhs]
    | array items =>
      rw [FormHasType] at h
      rw [shapeConstant] at hvalue
      obtain ⟨values, hvalues, -⟩ := Flow.bind_eq_ok.mp hvalue
      obtain ⟨element, -, hitems⟩ := h
      exact HaveTypes.scope_of_constants items hvalues hitems
    | tuple items =>
      rw [FormHasType] at h
      rw [shapeConstant] at hvalue
      obtain ⟨values, hvalues, -⟩ := Flow.bind_eq_ok.mp hvalue
      obtain ⟨types, -, hitems⟩ := h
      exact HaveTypes.scope_of_constants items hvalues hitems
    | _ =>
      simp [shapeConstant] at hvalue

theorem HaveTypes.scope_of_constants : ∀ (items : List Expr) {values : List ConstValue}
    {scope scope' : TypeScope} {types : List Ty}, constants globals items = .ok values →
    HaveTypes c result scope items types scope' → scope' = scope
  | [], _, _, _, _, _, h => by
    rw [HaveTypes] at h
    exact h.2
  | e :: rest, _, _, _, _, hvalues, h => by
    rw [HaveTypes] at h
    rw [constants] at hvalues
    obtain ⟨value, hvalue, hvalues⟩ := Flow.bind_eq_ok.mp hvalues
    obtain ⟨values, hrest, -⟩ := Flow.bind_eq_ok.mp hvalues
    obtain ⟨t, types, middle, -, he, hrest'⟩ := h
    rw [HaveTypes.scope_of_constants rest hrest hrest', HasType.scope_of_constant e hvalue he]

end

end

/-- The values of constants. -/
def constantValue? (globals : List GlobalConst) (name : String) : Option ConstValue :=
  (globals.find? (·.name == name)).map (·.value)

/--
A constant of a unit comes from a declaration: it has the type of the initialiser, and the value that the
initialiser has with the values of the constants before.
-/
structure GlobalConst.Comes (c : CheckedModule) (before : List GlobalConst) (g : GlobalConst) (decl : ConstDecl) :
    Prop where
  global : c.global? decl.name = some g
  written : ∀ w, decl.type = some w → g.type = w.resolve
  typed : HasType c .none [] decl.init g.type []
  value : decl.init.constant (constantValue? before) = .ok g.value

/-- A constant still comes from its declaration when the initialiser is not checked again. -/
theorem GlobalConst.Comes.agrees {before : List GlobalConst} {decl : ConstDecl} (h : g.Comes c before decl)
    (h' : c.Agrees decl.init.preorder c') :
  g.Comes c' before decl
  := ⟨h'.globals _ _ h.global, h.written, h.typed.agrees decl.init h', h.value⟩

theorem CheckedModule.global?_append :
  { c with globals := c.globals ++ [g] }.global? name
    = (c.global? name).or (if g.name = name then some g else none)
  := by
  rw [global?, List.find?_append, global?]
  by_cases hname : g.name = name <;> simp [hname]

/-- Another constant changes nothing of what is known. -/
theorem CheckedModule.agrees_addGlobal (c : CheckedModule) (parts : List Expr) (g : GlobalConst) :
  c.Agrees parts { c with globals := c.globals ++ [g] }
  := by
  refine ⟨fun _ _ => rfl, fun _ => id, fun _ sig hsig => ⟨sig, hsig, .refl sig⟩, fun _ => id, fun name g' hg' => ?_⟩
  rw [global?_append, hg', Option.some_or]

namespace Check

variable {n : Nat} {s : CheckState}

/-- A constant comes from its declaration if its initialiser has been checked and has a value. -/
theorem ensures_addGlobal {type : Ty} {value : ConstValue} {scope : TypeScope} {s₂ : CheckState} (hs : s.Declaring n)
    (hwritten : ∀ w, decl.type = some w → type = w.resolve)
    (h₂ : Checks decl.init.preorder (fun c r => HasType c r s.scope decl.init type scope) s s₂ ∧ s₂.scope = scope)
    (hvalue : decl.init.constant (constantValue? s₂.checked.globals) = .ok value) :
  Ensures s₂ (do
      declare (.ofStorage .constant false decl.name type decl.span)
      learn fun c => { c with globals := c.globals ++ [⟨decl.name, type, value, decl.span⟩] })
    fun _ s' => s'.Declaring n
      ∧ ∃ c g, s.checked.Later (decl.init.preorder.map Expr.id) c
        ∧ s'.checked = { c with globals := c.globals ++ [g] } ∧ g.Comes s'.checked c.globals decl
  := by
  obtain ⟨h₂, rfl⟩ := h₂
  have hs₂ := h₂.grown.sound hs.toSound
  have hcontext : s₂.context = none := by simpa [hs.context] using h₂.grown.declared
  have htyped := h₂.known .none (by simp [Expects, hcontext])
  have hscope := htyped.scope_of_constant _ hvalue
  rw [hs.scope] at hscope htyped
  rw [hscope] at htyped
  refine (ensures_declareGlobal Storage.noConfusion).bind ?_
  rintro _ _ ⟨hidden, symbols, hdeclare, rfl⟩
  have hdepth₂ : s₂.symbols.depth = 0 := h₂.grown.symbols.depth.trans hs.depth
  obtain ⟨hunbound, -⟩ := SymbolTable.of_declare_outermost hdepth₂ hdeclare
  obtain ⟨hdepth, hbindings⟩ := SymbolTable.of_declare hdeclare
  obtain ⟨hsound, hlocals⟩ := hs₂.symbols.declareGlobal hscope Storage.noConfusion rfl hdeclare
  have hunnamed := SymbolTable.not_mem_of_peek? hunbound
  have hkept : ∀ {p : Symbol → Prop}, (∃ b ∈ s₂.symbols.bindings, p b) → ∃ b ∈ symbols.bindings, p b := by
    rintro p ⟨b, hb, hp⟩
    exact ⟨b, hbindings ▸ List.mem_cons_of_mem _ hb, hp⟩
  have hglobals : ∀ g ∈ s₂.checked.globals, ∃ b ∈ s₂.symbols.bindings, b.name = g.name := by
    obtain ⟨new, hnew, -⟩ := h₂.grown.symbols.bindings
    rw [h₂.grown.globals, hnew]
    exact fun g hg => (hs.globals g hg).imp fun b hb => ⟨List.mem_append_right _ hb.1, hb.2⟩
  -- the name has been free so far
  have hundeclared : s₂.checked.declared? decl.name = none := by
    refine List.find?_eq_none.mpr fun other hother hname => ?_
    obtain ⟨b, hb, hbname⟩ := hs₂.bound other hother
    exact hunnamed b hb (hbname.trans (beq_iff_eq.mp hname))
  have hnone : s₂.checked.global? decl.name = none := by
    refine List.find?_eq_none.mpr fun other hother hname => ?_
    obtain ⟨b, hb, hbname⟩ := hglobals other hother
    exact hunnamed b hb (hbname.trans (beq_iff_eq.mp hname))
  set g : GlobalConst := ⟨decl.name, type, value, decl.span⟩ with hg
  have hfound : { s₂.checked with globals := s₂.checked.globals ++ [g] }.global? decl.name = some g := by
    rw [CheckedModule.global?_append, hnone, Option.none_or, if_pos rfl]
  have hagrees := s₂.checked.agrees_addGlobal decl.init.preorder g
  refine .modify ⟨⟨⟨⟨hs₂.types, hsound, fun other hother => hkept (hs₂.bound other hother), hs₂.imported, ?_⟩,
    hlocals, hcontext⟩, hdepth.trans hdepth₂, ?_⟩, s₂.checked, g, h₂.grown.toGains.later, rfl, hfound,
    hwritten, htyped.agrees decl.init hagrees, hvalue⟩
  · intro b hb hconstant
    change b ∈ symbols.bindings at hb
    rw [hbindings] at hb
    obtain rfl | hb := List.mem_cons.mp hb
    · exact ⟨hundeclared, g, hfound, rfl⟩
    · obtain ⟨hnone, g', hg', htype⟩ := hs₂.constants b hb hconstant
      exact ⟨hnone, g', hagrees.globals _ _ hg', htype⟩
  · refine List.forall_mem_append.mpr ⟨fun g hg => hkept (hglobals g hg), ?_⟩
    exact List.forall_mem_singleton.mpr ⟨_, hbindings ▸ List.mem_cons_self, rfl⟩

/-- A constant that is declared comes from its declaration. -/
theorem ensures_constant (hs : s.Declaring n) (hnumbered : Numbered n decl.init.preorder) :
  Ensures s (constant decl) fun _ s' => s'.Declaring n
    ∧ ∃ c g, s.checked.Later (decl.init.preorder.map Expr.id) c
      ∧ s'.checked = { c with globals := c.globals ++ [g] } ∧ g.Comes s'.checked c.globals decl
  := by
  refine (ensures_expr false decl.init hs.toSound hnumbered).bind fun found s₁ h₁ => ?_
  dsimp only
  split
  · next written hwritten =>
    refine (ensures_annotated written decl.span).bind ?_
    rintro _ _ ⟨rfl, rfl⟩
    refine (ensures_expectAssignable (HasType.assigns hnumbered) hs.toSound h₁.hasType _).bind fun _ s₂ h₂ => ?_
    rw [pure_bind]
    refine .bind_get ?_
    split
    · exact ensures_fail
    · next hvalue => exact ensures_addGlobal hs (fun w hw => by rw [Option.some.inj (hwritten.symm.trans hw)]) h₂ hvalue
  · next hwritten =>
    rw [pure_bind]
    refine .bind_get ?_
    split
    · exact ensures_fail
    · next hvalue => exact ensures_addGlobal hs (fun w hw => by cases hwritten.symm.trans hw) ⟨h₁.hasType, rfl⟩ hvalue

end Check

/-! ## Rounds -/

/-- All expressions in an item. -/
def Item.parts (item : Item) : List Expr := preorders item.roots

/-- The function that an item defines is typed. -/
def Item.Typed (c : CheckedModule) (item : Item) : Prop :=
  ∀ d, item.definition? = some d → ∀ sig, c.declared? d.name = some sig → FunctionHasType c sig d.body

theorem Item.parts_eq_of_definition? {d : Definition} (h : item.definition? = some d) :
  item.parts = preorders d.body
  := by
  cases item <;> cases h <;> rfl

/-- A typed function stays typed when nothing of it is checked again. -/
theorem Item.Typed.later (h : item.Typed c) (h' : c.Later ids c')
    (hdisjoint : List.Disjoint (item.parts.map Expr.id) ids) :
  item.Typed c'
  := by
  intro d hd sig' hsig'
  have hrel := h'.signatures d.name
  rw [hsig'] at hrel
  cases hsig : c.declared? d.name with
  | none =>
    rw [hsig] at hrel
    cases hrel
  | some sig =>
    rw [hsig] at hrel
    obtain ⟨hrefines⟩ := hrel
    obtain ⟨result, type, scope, hresult, hbody, htype⟩ := h d hd sig hsig
    rw [parts_eq_of_definition? hd] at hdisjoint
    exact ⟨result, type, scope, hrefines.result result hresult,
      hrefines.scope ▸ hbody.agrees d.body (h'.agrees hdisjoint), htype⟩

/-- The constants that items declare have a value, and all values come from them. -/
structure CheckedModule.Holds (c : CheckedModule) (items : List Item) : Prop where
  declared : ∀ decl, Item.const decl ∈ items →
    ∃ before g after, c.globals = before ++ g :: after ∧ g.Comes c before decl
  comes : ∀ before g after, c.globals = before ++ g :: after →
    ∃ decl, Item.const decl ∈ items ∧ g.Comes c before decl

theorem Item.parts_const (decl : ConstDecl) :
  (Item.const decl).parts = decl.init.preorder
  := by simp [parts, roots, preorders]

/-- Constants keep their values when their initialisers are not checked again. -/
theorem CheckedModule.Holds.later (h : c.Holds items) (h' : c.Later ids c')
    (hdisjoint : ∀ decl, Item.const decl ∈ items →
      List.Disjoint ((Item.const decl).parts.map Expr.id) ids) :
  c'.Holds items
  := by
  have hagrees : ∀ decl, Item.const decl ∈ items → c.Agrees decl.init.preorder c' :=
    fun decl hdecl => h'.agrees (Item.parts_const decl ▸ hdisjoint decl hdecl)
  refine ⟨fun decl hdecl => ?_, fun before g after hsplit => ?_⟩
  · obtain ⟨before, g, after, hsplit, hcomes⟩ := h.declared decl hdecl
    exact ⟨before, g, after, h'.globals.trans hsplit, hcomes.agrees (hagrees decl hdecl)⟩
  · obtain ⟨decl, hdecl, hcomes⟩ := h.comes before g after (h'.globals.symm.trans hsplit)
    exact ⟨decl, hdecl, hcomes.agrees (hagrees decl hdecl)⟩

/-- One more constant. -/
theorem CheckedModule.Holds.add {decl : ConstDecl} (h : c.Holds items)
    (hg : g.Comes { c with globals := c.globals ++ [g] } c.globals decl) :
  { c with globals := c.globals ++ [g] }.Holds (items ++ [Item.const decl])
  := by
  refine ⟨fun decl' hdecl' => ?_, fun before g' after hsplit => ?_⟩
  · obtain hdecl' | hdecl' := List.mem_append.mp hdecl'
    · obtain ⟨before, g', after, hsplit, hcomes⟩ := h.declared decl' hdecl'
      refine ⟨before, g', after ++ [g], ?_, hcomes.agrees (c.agrees_addGlobal _ g)⟩
      change c.globals ++ [g] = _
      rw [hsplit, List.append_assoc, List.cons_append]
    · cases List.mem_singleton.mp hdecl'
      exact ⟨c.globals, g, [], rfl, hg⟩
  · change c.globals ++ [g] = _ at hsplit
    obtain rfl | ⟨after, last, rfl⟩ := List.eq_nil_or_concat after
    · obtain ⟨rfl, hlast⟩ := List.append_inj' hsplit rfl
      cases hlast
      exact ⟨decl, by simp, hg⟩
    · rw [List.concat_eq_append, ← List.cons_append, ← List.append_assoc] at hsplit
      obtain ⟨hsplit, -⟩ := List.append_inj' hsplit rfl
      obtain ⟨decl', hdecl', hcomes⟩ := h.comes before g' after hsplit
      exact ⟨decl', List.mem_append_left _ hdecl', hcomes.agrees (c.agrees_addGlobal _ g)⟩

/-- Different items share no expression. -/
theorem Numbered.disjoint_items {n : Nat} (h : Numbered n (items.flatMap Item.parts)) {a b : Item} (ha : a ∈ items)
    (hb : b ∈ items) (hne : a ≠ b) :
  List.Disjoint (a.parts.map Expr.id) (b.parts.map Expr.id)
  := by
  induction items with
  | nil => cases ha
  | cons item items ih =>
    rw [List.flatMap_cons] at h
    have hrest : ∀ {x}, x ∈ items → x.parts.map Expr.id ⊆ (items.flatMap Item.parts).map Expr.id :=
      fun hx => List.map_subset _ fun part hpart => List.mem_flatMap.mpr ⟨_, hx, hpart⟩
    rcases List.mem_cons.mp ha with rfl | ha' <;> rcases List.mem_cons.mp hb with rfl | hb'
    · exact absurd rfl hne
    · exact List.disjoint_of_subset_right (hrest hb') h.disjoint
    · exact List.disjoint_of_subset_left (hrest ha') h.disjoint'
    · exact ih h.right ha' hb'

theorem preorders_filterMap_expr? (items : List Item) :
  preorders (items.filterMap Item.expr?) ⊆ items.flatMap Item.parts
  := by
  induction items with
  | nil => simp [preorders]
  | cons item items ih =>
    rw [List.flatMap_cons]
    cases item with
    | expr e =>
      rw [List.filterMap_cons_some (show (Item.expr e).expr? = some e from rfl), preorders]
      refine List.append_subset.mpr ⟨?_, List.subset_append_of_subset_right _ ih⟩
      exact List.subset_append_of_subset_left _ (by simp [Item.parts, Item.roots, preorders])
    | _ => exact List.subset_append_of_subset_right _ ih

theorem HaveTypes.append {result type : Ty} {items : List Expr} {types : List Ty} {scope middle scope' : TypeScope}
    {e : Expr} (h : HaveTypes c result scope items types middle) (he : HasType c result middle e type scope') :
  HaveTypes c result scope (items ++ [e]) (types ++ [type]) scope'
  := by
  induction items generalizing types scope with
  | nil =>
    rw [HaveTypes] at h
    obtain ⟨rfl, rfl⟩ := h
    simpa only [List.nil_append, HaveTypes] using ⟨type, [], scope', rfl, he, rfl, rfl⟩
  | cons item items ih =>
    rw [HaveTypes] at h
    obtain ⟨t, types, inner, rfl, hitem, hitems⟩ := h
    rw [List.cons_append, HaveTypes]
    exact ⟨t, _, inner, rfl, hitem, ih hitems⟩

namespace CheckState

variable {n : Nat} {s : CheckState} {items : List Item}

theorem declaring_initial (imports : List FunctionSig) (n : Nat) :
  (CheckState.initial imports n).Declaring n
  := by
  refine ⟨⟨⟨List.length_replicate, ⟨?_, ?_⟩, ?_, ?_, ?_⟩, rfl, rfl⟩, rfl, ?_⟩
  all_goals simp [CheckState.initial, SymbolTable.bindings, CheckedModule.initial]

/-- The first round. -/
theorem signed_declareSignatures (h : (items.foldl declareSignatures s).IsClean) :
  s.IsClean ∧ (s.Declaring n → (items.foldl declareSignatures s).Declaring n
    ∧ (items.foldl declareSignatures s).checked.globals = s.checked.globals
    ∧ ∀ item ∈ items, item.Signed (items.foldl declareSignatures s).checked)
  := by
  have hround := IsClean.of_foldl (p := fun done s' => s'.Declaring n ∧ s'.checked.globals = s.checked.globals
    ∧ ∀ item ∈ done, item.Signed s'.checked) (fun done item rest s' _ hclean => ?_) h
  · exact ⟨hround.1, fun hs => hround.2 ⟨hs, rfl, List.forall_mem_nil _⟩⟩
  · obtain ⟨hclean, hrun⟩ := hclean.of_attempt
      (unitFrame_eq.respects_itemSignatures unitFrame_eq.addSignature item.declares_true)
    refine ⟨hclean, fun ⟨hs, hglobals, hsigned⟩ => ?_⟩
    obtain ⟨hs', hdeclares, hglobals', hitem⟩ := Check.ensures_itemSignatures hs item _ _ hrun
    refine ⟨hs', hglobals'.trans hglobals,
      List.forall_mem_append.mpr ⟨fun item hmem => (hsigned item hmem).declares hdeclares, ?_⟩⟩
    exact List.forall_mem_singleton.mpr hitem

/-- The second round. -/
theorem holds_declareConstants (hnumbered : Numbered n (items.flatMap Item.parts))
    (h : (items.foldl declareConstant s).IsClean) :
  s.IsClean ∧ ((s.Declaring n ∧ s.checked.globals = [] ∧ ∀ item ∈ items, item.Signed s.checked) →
    (items.foldl declareConstant s).Outside n
      ∧ (∀ item ∈ items, item.Signed (items.foldl declareConstant s).checked)
      ∧ (items.foldl declareConstant s).checked.Holds items)
  := by
  have hround := IsClean.of_foldl (p := fun done s => s.Declaring n ∧ (∀ item ∈ items, item.Signed s.checked)
    ∧ s.checked.Holds done) (fun done item rest s hitems hclean => ?_) h
  · refine ⟨hround.1, fun ⟨hs, hnone, hsigned⟩ => ?_⟩
    obtain ⟨hs', hsigned', hholds⟩ := hround.2 ⟨hs, hsigned, by simp, by simp [hnone]⟩
    exact ⟨hs'.toOutside, hsigned', hholds⟩
  cases item with
  | const decl =>
    obtain ⟨hclean, hrun⟩ := hclean.of_attempt (unitFrame_eq.respects_constant fun _ _ => trivial)
    refine ⟨hclean, fun ⟨hs, hsigned, hholds⟩ => ?_⟩
    rw [hitems, List.flatMap_append, List.flatMap_cons] at hnumbered
    have hdecl : Numbered n decl.init.preorder := Item.parts_const decl ▸ hnumbered.right.left
    obtain ⟨hs', c, g, hlater, hchecked, hcomes⟩ := Check.ensures_constant hs hdecl _ _ hrun
    change (s.declareConstant (.const decl)).checked = _ at hchecked
    refine ⟨hs', fun item hmem => ?_, ?_⟩
    · rw [hchecked]
      exact (hsigned item hmem).declares fun name sig hsig => (hlater.declares name sig hsig :)
    · rw [hchecked]
      refine (hholds.later hlater fun decl' hmem => ?_).add (hchecked ▸ hcomes)
      -- the initialisers of the constants before are not checked again
      refine List.disjoint_of_subset_left ?_ (List.disjoint_of_subset_right ?_ hnumbered.disjoint)
      · exact List.map_subset _ fun part hpart => List.mem_flatMap.mpr ⟨_, hmem, hpart⟩
      · exact List.map_subset _ (Item.parts_const decl ▸ List.subset_append_left ..)
  | _ =>
    refine ⟨hclean, fun ⟨hs, hsigned, hholds⟩ => ⟨hs, hsigned, ?_⟩⟩
    refine ⟨fun decl hdecl => hholds.declared decl (by simpa using hdecl), fun before g after hsplit => ?_⟩
    obtain ⟨decl, hdecl, hcomes⟩ := hholds.comes before g after hsplit
    exact ⟨decl, List.mem_append_left _ hdecl, hcomes⟩

/-- The body of a function. -/
theorem typed_checkFunction {kind : FunctionKind} {name : String} {params : List Param} {result : Option Ty}
    {body : List Expr} {span : Span} (hnumbered : Numbered n (preorders body))
    (h : (s.checkFunction name params body span).IsClean) :
  s.IsClean ∧ (s.Outside n → s.checked.Signs kind name params result span →
    (s.checkFunction name params body span).Outside n
      ∧ s.checked.Later ((preorders body).map Expr.id) (s.checkFunction name params body span).checked
      ∧ ∀ sig, (s.checkFunction name params body span).checked.declared? name = some sig →
        FunctionHasType (s.checkFunction name params body span).checked sig body)
  := by
  cases hsig : s.checked.declared? name with
  | none =>
    simp only [checkFunction, hsig] at h
    refine ⟨h, fun _ ⟨_, sig, _, hsig', _⟩ => ?_⟩
    cases hsig'.symm.trans hsig
  | some sig =>
    by_cases hspan : sig.span = span
    · simp only [checkFunction, hsig, if_pos hspan] at h ⊢
      obtain ⟨hclean, hrun⟩ := IsClean.of_attempt
        (frame_eq.respects_inScope (frame_eq.respects_function params (fun _ _ => trivial)
          fun _ => unitFrame_eq.respects_inferResult sig)) h
      refine ⟨hclean, fun hs ⟨first, sig', hfirst, hsig', hrefines⟩ => ?_⟩
      obtain rfl := Option.some.inj (hsig'.symm.trans hsig)
      obtain rfl : sig'.name = name := by simpa using List.find?_some hsig
      have hparams : sig'.params.length = params.length :=
        (congrArg List.length hrefines.params).trans (FunctionSig.of_ofDecl hfirst).2.1
      have hs₀ : { s with context := some ⟨sig'.name, sig'.result, none, sig'.typeVars⟩, loopDepth := 0 }.Sound n :=
        { hs.toSound with }
      obtain ⟨hsound, hscope, hlater, htyped⟩ :=
        Check.ensures_inScope_function hs₀ hnumbered hs.scope rfl hsig hparams _ _ hrun
      exact ⟨⟨{ hsound with }, hscope, rfl⟩, hlater, htyped⟩
    · simp only [checkFunction, hsig, if_neg hspan] at h ⊢
      refine ⟨h, fun hs ⟨first, sig', hfirst, hsig', hrefines⟩ => ?_⟩
      obtain rfl := Option.some.inj (hsig'.symm.trans hsig)
      exact absurd (hrefines.span.trans (FunctionSig.of_ofDecl hfirst).2.2) hspan

/-- The third round. -/
theorem typed_checkBody (hnumbered : Numbered n (items.flatMap Item.parts))
    (h : (items.foldl checkBody s).IsClean) :
  s.IsClean ∧ ((s.Outside n ∧ (∀ item ∈ items, item.Signed s.checked) ∧ s.checked.Holds items) →
    (items.foldl checkBody s).Outside n ∧ (∀ item ∈ items, item.Signed (items.foldl checkBody s).checked)
    ∧ (items.foldl checkBody s).checked.Holds items
    ∧ ∀ item ∈ items, item.Typed (items.foldl checkBody s).checked)
  := by
  have hround := IsClean.of_foldl (p := fun done s => s.Outside n ∧ (∀ item ∈ items, item.Signed s.checked)
    ∧ s.checked.Holds items ∧ ∀ item ∈ done, item.Typed s.checked) (fun done item rest s hitems hclean => ?_) h
  · exact ⟨hround.1, fun hs => hround.2 ⟨hs.1, hs.2.1, hs.2.2, List.forall_mem_nil _⟩⟩
  have hmem : ∀ {x}, x ∈ done ∨ x = item → x ∈ items := by
    rintro x (hx | rfl)
    · simp [hitems, hx]
    · simp [hitems]
  -- the function that is checked is typed, and so are all that have been checked before
  have hnext : ∀ {s' : CheckState}, (∀ decl, item ≠ .const decl) →
      s.checked.Later (item.parts.map Expr.id) s'.checked → item.Typed s'.checked → s'.Outside n →
      (s.Outside n ∧ (∀ item ∈ items, item.Signed s.checked) ∧ s.checked.Holds items
        ∧ ∀ item ∈ done, item.Typed s.checked) →
      s'.Outside n ∧ (∀ item ∈ items, item.Signed s'.checked) ∧ s'.checked.Holds items
        ∧ ∀ item' ∈ done ++ [item], item'.Typed s'.checked := by
    intro s' hother hlater htyped hs' ⟨_, hsigned, hholds, hdone⟩
    refine ⟨hs', fun x hx => (hsigned x hx).declares hlater.declares,
      hholds.later hlater fun decl hdecl => ?_, fun x hx => ?_⟩
    · exact hnumbered.disjoint_items hdecl (hmem (.inr rfl)) (hother decl).symm
    · by_cases hsame : x = item
      · exact hsame ▸ htyped
      · have hx : x ∈ done := by simpa [hsame] using hx
        exact (hdone x hx).later hlater (hnumbered.disjoint_items (hmem (.inl hx)) (hmem (.inr rfl)) hsame)
  have hparts : Numbered n item.parts := by
    rw [hitems, List.flatMap_append, List.flatMap_cons] at hnumbered
    exact hnumbered.right.left
  cases item with
  | function decl | operator decl =>
    obtain ⟨hclean, hchecked⟩ := typed_checkFunction hparts hclean
    refine ⟨hclean, fun hp => ?_⟩
    obtain ⟨hs', hlater, htyped⟩ := hchecked hp.1 (hp.2.1 _ (hmem (.inr rfl)))
    refine hnext (fun _ => Item.noConfusion) hlater ?_ hs' hp
    rintro _ ⟨⟩
    exact htyped
  | const decl =>
    refine ⟨hclean, fun ⟨hs, hsigned, hholds, hdone⟩ => ⟨hs, hsigned, hholds, ?_⟩⟩
    exact List.forall_mem_append.mpr ⟨hdone, List.forall_mem_singleton.mpr (by rintro _ ⟨⟩)⟩
  | _ =>
    exact ⟨hclean, fun hp => hnext (fun _ => Item.noConfusion) (.refl _ _) (by rintro _ ⟨⟩) hp.1 hp⟩

/-- The last round. -/
theorem typed_checkTopLevel {depth : Nat} (hnumbered : Numbered n (items.flatMap Item.parts))
    (h : (items.foldl (checkTopLevel depth) s).IsClean) :
  s.IsClean ∧ ((s.Sound n ∧ s.scope = [] ∧ s.context = none
      ∧ (∀ item ∈ items, item.Signed s.checked ∧ item.Typed s.checked) ∧ s.checked.Holds items) →
    (∀ item ∈ items, item.Signed (items.foldl (checkTopLevel depth) s).checked
        ∧ item.Typed (items.foldl (checkTopLevel depth) s).checked)
      ∧ (items.foldl (checkTopLevel depth) s).checked.Holds items
      ∧ ∃ types scope, HaveTypes (items.foldl (checkTopLevel depth) s).checked .none []
        (items.filterMap Item.expr?) types scope)
  := by
  have hround := IsClean.of_foldl (p := fun done s => s.Sound n ∧ s.context = none
    ∧ (∀ item ∈ items, item.Signed s.checked ∧ item.Typed s.checked) ∧ s.checked.Holds items
    ∧ ∃ types, HaveTypes s.checked .none [] (done.filterMap Item.expr?) types s.scope)
    (fun done item rest s hitems hclean => ?_) h
  · refine ⟨hround.1, fun ⟨hs, hscope, hcontext, hall, hholds⟩ => ?_⟩
    obtain ⟨-, -, hall, hholds, types, htypes⟩ :=
      hround.2 ⟨hs, hcontext, hall, hholds, [], by rw [hscope]; exact ⟨rfl, rfl⟩⟩
    exact ⟨hall, hholds, types, _, htypes⟩
  cases item with
  | expr e =>
    obtain ⟨hclean, hrun⟩ := hclean.of_attempt (frame_eq.respects_expr false e fun _ _ => trivial).discard
    refine ⟨hclean, fun ⟨hs, hcontext, hall, hholds, types, htypes⟩ => ?_⟩
    have hsplit := hnumbered
    rw [hitems, List.flatMap_append, List.flatMap_cons, ← List.append_assoc] at hsplit
    have hparts : (Item.expr e).parts = e.preorder := by simp [Item.parts, Item.roots, preorders]
    rw [hparts] at hsplit
    have he := hsplit.left.right
    set s' := checkTopLevel depth s (.expr e)
    obtain ⟨type, hfinds⟩ : ∃ type, Finds e { s with loopDepth := 0 } type s' := by
      have hrun' : Ensures { s with loopDepth := 0 } (discard (Check.expr false e)) fun _ s' =>
          ∃ type, Finds e { s with loopDepth := 0 } type s' :=
        Ensures.map ((Check.ensures_expr false e hs.atDepth he).mono fun type _ h => ⟨type, h⟩)
      exact hrun' () s' hrun
    have hlater : s.checked.Later _ s'.checked := hfinds.grown.toGains.later
    have hcontext' : s'.context = none := by
      simpa [hcontext] using hfinds.grown.declared
    have hdisjoint : ∀ {item}, item ∈ items → item ≠ .expr e →
        List.Disjoint (item.parts.map Expr.id) (e.preorder.map Expr.id) := by
      intro item hitem hne
      rw [← hparts]
      exact hnumbered.disjoint_items hitem (by simp [hitems]) hne
    refine ⟨hfinds.grown.sound hs.atDepth, hcontext', fun item hitem => ?_,
      hholds.later hlater fun decl hdecl => hdisjoint hdecl Item.noConfusion, types ++ [type], ?_⟩
    · refine ⟨(hall item hitem).1.declares hlater.declares, ?_⟩
      by_cases hsame : item = .expr e
      · subst hsame
        rintro _ ⟨⟩
      · exact (hall item hitem).2.later hlater (hdisjoint hitem hsame)
    · rw [List.filterMap_append]
      refine (HaveTypes.lasts _ _ .none (hlater.agrees ?_) htypes).append
        (hfinds.known .none (by simp [Expects, hcontext'])).1
      exact List.disjoint_of_subset_left (List.map_subset _ (preorders_filterMap_expr? done)) hsplit.left.disjoint
  | _ =>
    refine ⟨hclean, fun ⟨hs, hcontext, hall, hholds, types, htypes⟩ => ⟨hs, hcontext, hall, hholds, types, ?_⟩⟩
    rw [List.filterMap_append, List.filterMap_cons_none rfl, List.filterMap_nil, List.append_nil]
    exact htypes

end CheckState

/-! ## Units -/

/-- Leaving a scope finds out nothing but warnings. -/
theorem Check.ensures_leaveScope_later {s : CheckState} :
  Ensures s leaveScope fun _ s' => s.checked.Later [] s'.checked
  := by
  refine ensures_leaveScope.mono ?_
  rintro _ s' ⟨-, -, -, warnings, hchecked⟩
  exact hchecked ▸ .warned _ _

/-- The definitions of a unit with their signatures come from its items. -/
theorem mem_signedDefinitions {checked : CheckedModule} {d : FunctionSig × Definition}
    (h : d ∈ signedDefinitions m checked) :
  (∃ item ∈ m.flatItems, item.definition? = some d.2) ∧ checked.signature? d.2.name = some d.1
    ∧ d.1.span = d.2.span
  := by
  obtain ⟨source, hsource, hd⟩ := List.mem_filterMap.mp h
  obtain ⟨item, hitem, hdefinition⟩ := List.mem_filterMap.mp hsource
  cases hsig : checked.signature? source.name with
  | none => simp [hsig] at hd
  | some sig =>
    by_cases hspan : sig.span = source.span
    · obtain rfl : (sig, source) = d := by simpa [hsig, hspan] using hd
      exact ⟨⟨item, hitem, hdefinition⟩, hsig, hspan⟩
    · simp [hsig, hspan] at hd

theorem Item.Signed.declared? {d : Definition} (h : item.Signed c) (hd : item.definition? = some d) :
  ∃ sig, c.declared? d.name = some sig
  := by
  cases item <;> cases hd
  all_goals
    obtain ⟨-, sig, -, hsig, -⟩ := h
    exact ⟨sig, hsig⟩

/--
In a unit without problems all functions are declared and typed, constants have their values, and the
expressions outside of functions are typed.
-/
theorem sound_checkModule (hnumbered : Numbered m.exprCount (m.flatItems.flatMap Item.parts))
    (hclean : (checkModule m imports).problems = []) :
  (∀ item ∈ m.flatItems, item.Signed (checkModule m imports) ∧ item.Typed (checkModule m imports))
    ∧ (checkModule m imports).Holds m.flatItems
    ∧ ∃ types scope, HaveTypes (checkModule m imports) .none [] (m.flatItems.filterMap Item.expr?) types scope
  := by
  have hleave : ∀ s : CheckState, (s.attempt 0 Check.leaveScope).IsClean →
      s.IsClean ∧ Check.leaveScope s = (.ok (), s.attempt 0 Check.leaveScope) := fun _ h => ⟨h, rfl⟩
  obtain ⟨hclean, hleave⟩ := hleave _ (show IsClean _ from hclean)
  obtain ⟨hclean, htopLevel⟩ := typed_checkTopLevel hnumbered hclean
  obtain ⟨hclean, hbodies⟩ := typed_checkBody hnumbered (show IsClean _ from hclean)
  obtain ⟨hclean, hconstants⟩ := holds_declareConstants hnumbered hclean
  obtain ⟨-, hsignatures⟩ := signed_declareSignatures hclean
  -- from the first round to the last
  obtain ⟨hdeclaring, hglobals, hsigned⟩ := hsignatures (declaring_initial imports m.exprCount)
  obtain ⟨houtside, hsigned, hholds, htyped⟩ := hbodies (hconstants ⟨hdeclaring, hglobals.trans rfl, hsigned⟩)
  obtain ⟨hall, hholds, types, scope, htypes⟩ := htopLevel ⟨houtside.toSound.enter, houtside.scope,
    houtside.context, fun item hitem => ⟨hsigned item hitem, htyped item hitem⟩, hholds⟩
  have hlater := Check.ensures_leaveScope_later _ _ hleave
  refine ⟨fun item hitem => ⟨(hall item hitem).1.declares hlater.declares, (hall item hitem).2.later hlater (by simp)⟩,
    hholds.later hlater (by simp), types, scope, HaveTypes.lasts _ _ .none (hlater.agrees (by simp)) htypes⟩

/--
In a unit without problems all functions are declared and typed, and the expressions outside of functions
are typed as well.
-/
theorem typed_checkModule (hnumbered : Numbered m.exprCount (m.flatItems.flatMap Item.parts))
    (hclean : (checkModule m imports).problems = []) :
  (∀ d ∈ signedDefinitions m (checkModule m imports),
      d.1 ∈ (checkModule m imports).signatures ∧ FunctionHasType (checkModule m imports) d.1 d.2.body)
    ∧ ∃ types scope, HaveTypes (checkModule m imports) .none [] (m.flatItems.filterMap Item.expr?) types scope
  := by
  obtain ⟨hall, -, htopLevel⟩ := sound_checkModule hnumbered hclean
  refine ⟨fun d hd => ?_, htopLevel⟩
  obtain ⟨⟨item, hitem, hdefinition⟩, hsignature, -⟩ := mem_signedDefinitions hd
  obtain ⟨sig, hsig⟩ := (hall item hitem).1.declared? hdefinition
  obtain rfl := Option.some.inj ((CheckedModule.signature?_of_declared? hsig).symm.trans hsignature)
  exact ⟨List.mem_of_find?_eq_some hsig, (hall item hitem).2 d.2 hdefinition _ hsig⟩

end FormCompiler
