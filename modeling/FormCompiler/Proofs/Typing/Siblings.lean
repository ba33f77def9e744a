import FormCompiler.Proofs.Typing.Function
import FormCompiler.Proofs.Typing.Rounds

/-!
# Functions beside each other

Two units that differ in the body of one function are checked side by side. Until that body is checked the states
are `Parallel`: all that a check can tell apart is the same, though the tables of types have other sizes. The check
of a body is `Confined`: whatever it does stays in the scopes that it opens, in the types of its own expressions and
in what it adds to the findings, and when it ends, also by a problem deep inside, the scopes are left. So the states
after the two bodies are parallel again, and the same is found in all other items (`checkModule_siblings`). This
needs that the functions have written result types: a result type that is inferred depends on the body.
-/

namespace FormCompiler

open CheckState

variable {own : Nat → Prop}

/-! ## Types of some expressions -/

namespace ExprTypes

variable {types types' types'' : ExprTypes}

/-- The same is known of some expressions, which both tables have room for. -/
structure SameOn (own : Nat → Prop) (types types' : ExprTypes) : Prop where
  type? : ∀ id, own id → types'.type? id = types.type? id
  room : ∀ id, own id → id < types.length ∧ id < types'.length

section

variable (h : types.SameOn own types')

include h

theorem SameOn.symm :
  types'.SameOn own types
  := ⟨fun id hid => (h.type? id hid).symm, fun id hid => (h.room id hid).symm⟩

theorem SameOn.trans (h' : types'.SameOn own types'') :
  types.SameOn own types''
  := ⟨fun id hid => (h'.type? id hid).trans (h.type? id hid), fun id hid => ⟨(h.room id hid).1, (h'.room id hid).2⟩⟩

/-- An expression gets the same type in both tables. -/
theorem SameOn.record {id : Nat} (hid : own id) (type : Ty) :
  (types.record id type).SameOn own (types'.record id type)
  := by
  refine ⟨fun other hother => ?_, fun other hother => ?_⟩
  · by_cases hsame : other = id
    · subst hsame
      rw [type?_record_self (h.room other hother).1, type?_record_self (h.room other hother).2]
    · rw [type?_record_of_ne hsame, type?_record_of_ne hsame, h.type? other hother]
  · rw [ExprTypes.record, ExprTypes.record, List.length_set, List.length_set]
    exact h.room other hother

/-- Other expressions get types in the second table. -/
theorem SameOn.changes {ids : List Nat} (hchanges : types'.Changes ids types'') (hids : ∀ id ∈ ids, ¬ own id) :
  types.SameOn own types''
  := ⟨fun id hid => (hchanges.others id fun hmem => hids id hmem hid).trans (h.type? id hid),
    fun id hid => hchanges.length ▸ h.room id hid⟩

end

/-- An action has the same result whatever is known of expressions other than its own. -/
def Steady (own : Nat → Prop) (x : StateM ExprTypes Bool) : Prop :=
  ∀ ⦃types types'⦄, types.SameOn own types' → (x types').1 = (x types).1 ∧ (x types).2.SameOn own (x types').2

namespace Steady

theorem pure (b : Bool) :
  Steady own (pure b)
  := fun _ _ h => ⟨rfl, h⟩

/-- One item is given a type, if it does not have it, and then the others are. -/
theorem next {x k : StateM ExprTypes Bool} (hx : Steady own x) (hk : Steady own k) {id : Nat} (hid : own id)
    (expected : Ty) :
  Steady own fun types => if types.type? id = some expected then k types else match x types with
    | (true, types') => k types'
    | (false, types') => (false, types')
  := by
  intro types types' h
  dsimp only
  rw [h.type? id hid]
  split
  · exact hk h
  · obtain ⟨hfits, hnext⟩ := hx h
    generalize x types = r, x types' = r' at hfits hnext ⊢
    obtain ⟨fits, next⟩ := r
    obtain ⟨fits', next'⟩ := r'
    obtain rfl : fits' = fits := hfits
    cases fits'
    · exact ⟨rfl, hnext⟩
    · exact hk hnext

end Steady

mutual

theorem steady_coerceLiteral (expected : Ty) : ∀ e : Expr, (∀ part ∈ e.preorder, own part.id) →
    Steady own (coerceLiteral expected e)
  | .node id span shape, h => by
    obtain ⟨hid, hparts⟩ := List.forall_mem_cons.mp h
    intro types types' hsame
    obtain ⟨hfits, hshape⟩ := steady_coerceShape expected shape hparts hsame
    rw [coerceLiteral_node, coerceLiteral_node]
    generalize coerceShape expected shape types = r, coerceShape expected shape types' = r' at hfits hshape ⊢
    obtain ⟨fits, next⟩ := r
    obtain ⟨fits', next'⟩ := r'
    obtain rfl : fits' = fits := hfits
    cases fits'
    · exact ⟨rfl, hshape⟩
    · exact ⟨rfl, hshape.record hid expected⟩

theorem steady_coerceShape (expected : Ty) (shape : Shape Expr) (h : ∀ part ∈ shapePreorder shape, own part.id) :
  Steady own (coerceShape expected shape)
  := by
  cases shape with
  | array items =>
    simp only [coerceShape]
    split
    · split
      · rw [coerceAll_eq_coerceEach]
        exact steady_coerceEach _ items h
      · exact .pure _
    · exact .pure _
  | tuple items =>
    simp only [coerceShape]
    split
    · split
      · exact steady_coerceEach _ items h
      · exact .pure _
    · exact .pure _
  | literal value => cases value <;> exact .pure _
  | _ => exact .pure _

theorem steady_coerceEach : ∀ (expected : List Ty) (items : List Expr), (∀ part ∈ preorders items, own part.id) →
    Steady own (coerceEach expected items)
  | expected :: rest, item :: items, h => by
    obtain ⟨hitem, hitems⟩ := List.forall_mem_append.mp h
    intro types types' hsame
    rw [coerceEach_cons, coerceEach_cons]
    exact (steady_coerceLiteral expected item hitem).next (steady_coerceEach rest items hitems)
      (hitem item item.mem_preorder) expected hsame
  | [], _, _ => by
    rw [coerceEach]
    · exact .pure _
    · simp
  | _ :: _, [], _ => by
    rw [coerceEach]
    · exact .pure _
    · simp

end

end ExprTypes

/-! ## Findings -/

namespace Findings

@[simp]
theorem append_none (x : Findings) :
  x ++ none = x
  := by
  change append x none = x
  simp [append, none]

theorem append_assoc (x y z : Findings) :
  x ++ y ++ z = x ++ (y ++ z)
  := by
  change append (append x y) z = append x (append y z)
  simp [append]

end Findings

namespace CheckState

/-- The warnings about locals that have not been read when a scope is left. -/
def unusedLocals (s : CheckState) : Findings :=
  ⟨[], (s.symbols.leave.1.filter Check.isUnread).map fun s => ⟨s.span, .unused s.name⟩, [], [], []⟩

theorem findings_leave (s : CheckState) :
  s.leave.checked.findings = s.checked.findings ++ s.unusedLocals
  := by
  change _ = Findings.append s.checked.findings s.unusedLocals
  simp [CheckedModule.findings, leave, unusedLocals, Findings.append]

theorem findings_giveUp (s : CheckState) (depth : Nat) (problem : TypeProblem) :
  (s.giveUp depth problem).checked.findings = s.checked.findings ++ ⟨[problem], [], [], [], []⟩
  := by
  change _ = Findings.append s.checked.findings _
  simp [CheckedModule.findings, giveUp, Findings.append]

end CheckState

theorem CheckedModule.take_eq (c : CheckedModule) (name : String) (sig : FunctionSig) :
  ∃ imported, c.take name sig = { c with imported := imported }
  := by
  unfold take
  split
  · exact ⟨_, rfl⟩
  · exact ⟨_, rfl⟩

theorem CheckedModule.plain_markTailRecursive (c : CheckedModule) (name : String) :
  (c.markTailRecursive name).signatures.map FunctionSig.plain = c.signatures.map FunctionSig.plain
  := by
  rw [markTailRecursive, List.map_map]
  refine List.map_congr_left fun sig _ => ?_
  dsimp only [Function.comp_apply]
  split <;> rfl

/-! ## Parallel states -/

namespace CheckState

variable {s s' s'' : CheckState}

/-- States in which a check of some expressions does the same. -/
structure Similar (own : Nat → Prop) (s s' : CheckState) : Prop where
  imports : s'.imports = s.imports
  symbols : s'.symbols.view = s.symbols.view
  context : s'.context = s.context
  loopDepth : s'.loopDepth = s.loopDepth
  globals : s'.checked.globals = s.checked.globals
  signatures : s'.checked.signatures.map FunctionSig.plain = s.checked.signatures.map FunctionSig.plain
  types : s.checked.exprTypes.SameOn own s'.checked.exprTypes

theorem Similar.symm (h : s.Similar own s') :
  s'.Similar own s
  := ⟨h.imports.symm, h.symbols.symm, h.context.symm, h.loopDepth.symm, h.globals.symm, h.signatures.symm, h.types.symm⟩

theorem Similar.trans (h : s.Similar own s') (h' : s'.Similar own s'') :
  s.Similar own s''
  := ⟨h'.imports.trans h.imports, h'.symbols.trans h.symbols, h'.context.trans h.context,
    h'.loopDepth.trans h.loopDepth, h'.globals.trans h.globals, h'.signatures.trans h.signatures,
    h.types.trans h'.types⟩

theorem Similar.nesting (h : s.Similar own s') :
  s'.nesting = s.nesting
  := Prod.ext (SymbolTable.depth_eq_of_view h.symbols) h.loopDepth

/-- All functions have result types. -/
def IsAnnotated (s : CheckState) : Prop := ∀ sig ∈ s.checked.signatures, sig.result.isSome = true

/-- What is known of signatures does not depend on whether the functions call themselves in tail position. -/
theorem IsAnnotated.of_similar (hs : s.IsAnnotated) (h : s.Similar own s') :
  s'.IsAnnotated
  := by
  intro sig hsig
  have hplain : sig.plain ∈ s.checked.signatures.map FunctionSig.plain := h.signatures ▸ List.mem_map_of_mem hsig
  obtain ⟨other, hother, hsame⟩ := List.mem_map.mp hplain
  have hresult : other.result = sig.result := show other.plain.result = sig.plain.result from congrArg _ hsame
  exact hresult ▸ hs other hother

/-- A change of signatures that does not look at whether the functions call themselves in tail position. -/
theorem plain_map {signatures signatures' : List FunctionSig} {f : FunctionSig → FunctionSig}
    (hf : ∀ sig, (f sig).plain = (f sig.plain).plain)
    (h : signatures'.map FunctionSig.plain = signatures.map FunctionSig.plain) :
  (signatures'.map f).map FunctionSig.plain = (signatures.map f).map FunctionSig.plain
  := by
  have hmap : ∀ signatures : List FunctionSig, (signatures.map f).map FunctionSig.plain
      = (signatures.map FunctionSig.plain).map fun sig => (f sig).plain := by
    intro signatures
    rw [List.map_map, List.map_map]
    exact List.map_congr_left fun sig _ => hf sig
  rw [hmap, hmap, h]

/-- Similar states in two runs, which have found the same since some point of either run. -/
structure Parallel (own : Nat → Prop) (before before' : Findings) (s s' : CheckState) : Prop
    extends s.Similar own s' where
  annotated : s.IsAnnotated
  found : ∃ found, s.checked.findings = before ++ found ∧ s'.checked.findings = before' ++ found

variable {before before' : Findings}

/-- More is found in both runs. -/
theorem Parallel.more (h : Parallel own before before' s s') (found : Findings) {next next' : Findings}
    (hnext : next = s.checked.findings ++ found) (hnext' : next' = s'.checked.findings ++ found) :
  ∃ found, next = before ++ found ∧ next' = before' ++ found
  := by
  obtain ⟨earlier, hbefore, hbefore'⟩ := h.found
  refine ⟨earlier ++ found, ?_, ?_⟩
  · rw [hnext, hbefore, Findings.append_assoc]
  · rw [hnext', hbefore', Findings.append_assoc]

/-- Checks do the same in parallel states, and leave parallel states behind. -/
theorem unitFrame_parallel (own : Nat → Prop) (before before' : Findings) :
  UnitFrame (Parallel own before before') own fun sig => sig.result.isSome = true
  where
  nesting _ _ h := h.nesting
  peek? _ _ h := SymbolTable.peek?_eq_of_view h.symbols
  push symbol _ _ h := { h with symbols := SymbolTable.view_push h.symbols symbol }
  add found _ _ _ h := { h with found := h.more found rfl rfl }
  context _ _ h := h.context
  declared? _ _ h := CheckedModule.declared?_of_plain h.signatures
  offered? _ _ h name _ := by rw [h.imports]
  type? _ _ h := h.types.type?
  setContext change _ _ h := { h with context := congrArg change h.context }
  setLoopDepth change _ _ h := { h with loopDepth := congrArg change h.loopDepth }
  enter _ _ h := { h with symbols := SymbolTable.view_enter h.symbols }
  leave _ _ t t' _ h _ := by
    obtain ⟨hreleased, hview⟩ := SymbolTable.leave_eq_of_view h.symbols
    have hunused : t'.unusedLocals = t.unusedLocals := by rw [unusedLocals, hreleased, unusedLocals]
    exact { h with
      symbols := hview
      found := h.more t.unusedLocals t.findings_leave (hunused ▸ t'.findings_leave) }
  markUsed name _ _ h := { h with symbols := SymbolTable.view_markUsed h.symbols name }
  take name sig s s' h := by
    obtain ⟨imported, htake⟩ := s.checked.take_eq name sig
    obtain ⟨imported', htake'⟩ := s'.checked.take_eq name sig
    dsimp only [learn]
    rw [htake, htake']
    exact { h with }
  markTailRecursive name s s' h :=
    { h with
      signatures := (s'.checked.plain_markTailRecursive name).trans
        (h.signatures.trans (s.checked.plain_markTailRecursive name).symm)
      annotated := List.forall_mem_map.mpr fun sig hsig => by split <;> exact h.annotated sig hsig }
  record id type hid _ _ h := { h with types := h.types.record hid type }
  coerce expected e he s s' h := by
    obtain ⟨hfits, htypes⟩ := ExprTypes.steady_coerceLiteral expected e he h.types
    exact ⟨hfits, { h with types := htypes }⟩
  globals _ _ h := h.globals
  addGlobal g _ _ h := { h with globals := congrArg (· ++ [g]) h.globals }
  addSignature sig hsig s s' h :=
    { h with
      signatures := by
        change (_ ++ [sig]).map FunctionSig.plain = (_ ++ [sig]).map FunctionSig.plain
        rw [List.map_append, List.map_append, h.signatures]
      annotated := List.forall_mem_append.mpr ⟨h.annotated, by simpa using hsig⟩ }
  setResult sig result s s' h :=
    { h with
      symbols := SymbolTable.view_setGlobalType h.symbols _ _
      signatures := plain_map (fun other => by
        by_cases hname : other.name = sig.name <;> simp [FunctionSig.plain, hname]) h.signatures
      annotated := List.forall_mem_map.mpr fun other hother => by
        split
        · rfl
        · exact h.annotated other hother }
  giveUp s s' h depth _ problem :=
    { h with
      symbols := SymbolTable.view_truncate h.symbols depth
      context := rfl
      loopDepth := rfl
      found := h.more _ (s.findings_giveUp depth problem) (s'.findings_giveUp depth problem) }

/-! ## Confined changes -/

/-- All changes since a state are within scopes that have been opened since then, or concern other expressions. -/
structure Confined (own : Nat → Prop) (start s : CheckState) : Prop where
  outermost : s.symbols.globals = start.symbols.globals
  imports : s.imports = start.imports
  globals : s.checked.globals = start.checked.globals
  signatures : s.checked.signatures.map FunctionSig.plain = start.checked.signatures.map FunctionSig.plain
  types : start.checked.exprTypes.SameOn own s.checked.exprTypes
  found : ∃ found, s.checked.findings = start.checked.findings ++ found

namespace Confined

variable {start : CheckState}

/-- More is found. -/
theorem more (h : Confined own start s) (found : Findings) {next : Findings}
    (hnext : next = s.checked.findings ++ found) :
  ∃ found, next = start.checked.findings ++ found
  := by
  obtain ⟨earlier, hearlier⟩ := h.found
  exact ⟨earlier ++ found, by rw [hnext, hearlier, Findings.append_assoc]⟩

theorem leave (h : Confined own start s) :
  Confined own start s.leave
  := { h with
    outermost := s.symbols.globals_leave.trans h.outermost
    found := h.more s.unusedLocals s.findings_leave }

theorem giveUp (h : Confined own start s) (depth : Nat) (problem : TypeProblem) :
  Confined own start (s.giveUp depth problem)
  := { h with
    outermost := (s.symbols.globals_truncate depth).trans h.outermost
    found := h.more _ (s.findings_giveUp depth problem) }

/-- Outside of all functions, nothing is left of confined changes that checks of the expressions depend on. -/
theorem similar (h : Confined own start s) (hnesting : start.nesting = (0, 0)) (hnesting' : s.nesting = (0, 0))
    (hcontext : s.context = start.context) :
  start.Similar own s
  := by
  refine ⟨h.imports, ?_, hcontext, ?_, h.globals, h.signatures, h.types⟩
  · rw [SymbolTable.view_eq (congrArg Prod.fst hnesting'), SymbolTable.view_eq (congrArg Prod.fst hnesting),
      h.outermost]
  · exact (congrArg Prod.snd hnesting').trans (congrArg Prod.snd hnesting).symm

/-- Checks of other expressions inside of a scope stay confined. -/
theorem formFrame (own : Nat → Prop) (start : CheckState) :
  FormFrame (fun s s' => s = s' ∧ s.symbols.depth ≠ 0 ∧ Confined own start s) fun id => ¬ own id
  where
  nesting := by rintro s _ ⟨rfl, _⟩; rfl
  peek? := by rintro s _ ⟨rfl, _⟩ _; rfl
  push := by
    rintro symbol s _ ⟨rfl, hinside, h⟩
    refine ⟨rfl, (s.symbols.depth_push symbol).trans_ne hinside, { h with outermost := ?_ }⟩
    change (s.symbols.push symbol).globals = start.symbols.globals
    rw [SymbolTable.globals_push, if_neg hinside, h.outermost]
  add := by
    rintro found _ s _ ⟨rfl, hinside, h⟩
    exact ⟨rfl, hinside, { h with found := h.more found rfl }⟩
  context := by rintro s _ ⟨rfl, _⟩; rfl
  declared? := by rintro s _ ⟨rfl, _⟩ _; rfl
  offered? := by rintro s _ ⟨rfl, _⟩ _ _; rfl
  type? := by rintro s _ ⟨rfl, _⟩ _ _; rfl
  setContext := by
    rintro _ s _ ⟨rfl, hinside, h⟩
    exact ⟨rfl, hinside, { h with }⟩
  setLoopDepth := by
    rintro _ s _ ⟨rfl, hinside, h⟩
    exact ⟨rfl, hinside, { h with }⟩
  enter := by
    rintro s _ ⟨rfl, hinside, h⟩
    exact ⟨rfl, s.symbols.depth_enter.trans_ne (Nat.succ_ne_zero _), { h with }⟩
  leave := by
    rintro s _ t _ ⟨-, hinside, -⟩ ⟨rfl, -, h⟩ hdepth
    have hnesting : t.leave.nesting = (s.symbols.depth, t.loopDepth) := nesting_leave (Prod.ext hdepth rfl)
    exact ⟨rfl, fun houtside => hinside ((congrArg Prod.fst hnesting).symm.trans houtside), h.leave⟩
  markUsed := by
    rintro name s _ ⟨rfl, hinside, h⟩
    exact ⟨rfl, (s.symbols.depth_markUsed name).trans_ne hinside, { h with
      outermost := (s.symbols.globals_markUsed name).trans h.outermost }⟩
  take := by
    rintro name sig s _ ⟨rfl, hinside, h⟩
    obtain ⟨imported, htake⟩ := s.checked.take_eq name sig
    refine ⟨rfl, hinside, ?_⟩
    dsimp only [learn]
    rw [htake]
    exact { h with }
  markTailRecursive := by
    rintro name s _ ⟨rfl, hinside, h⟩
    exact ⟨rfl, hinside, { h with signatures := (s.checked.plain_markTailRecursive name).trans h.signatures }⟩
  record := by
    rintro id type hid s _ ⟨rfl, hinside, h⟩
    exact ⟨rfl, hinside, { h with types := h.types.changes (ExprTypes.changes_record id type) (by simpa using hid) }⟩
  coerce := by
    rintro expected e he s _ ⟨rfl, hinside, h⟩
    have hchanges := changes_coerceLiteral expected e s.checked.exprTypes
    exact ⟨rfl, rfl, hinside, { h with types := h.types.changes hchanges (by simpa using he) }⟩

/-- The body of a function with a result type is checked in a scope of its own. -/
theorem attempt_function (h : Confined own start s) (hnesting : s.nesting = (0, 0)) {sig : FunctionSig}
    (hresult : sig.result.isSome = true) (params : List Param) {body : List Expr}
    (hbody : ∀ part ∈ preorders body, ¬ own part.id) :
  Confined own start (s.attempt 0 (Check.inScope (Check.function sig params body)))
    ∧ (s.attempt 0 (Check.inScope (Check.function sig params body))).nesting = (0, 0)
  := by
  have hframe := formFrame own start
  have hfunction : Respects _ (Check.function sig params body) := hframe.respects_function params hbody fun hnone => by
    rw [hnone] at hresult
    cases hresult
  have happly := FormFrame.inScope_apply (s := s) (Check.function sig params body)
  have hrun := hfunction (s := s.bind .enter)
    ⟨rfl, s.symbols.depth_enter.trans_ne (Nat.succ_ne_zero _), { h with }⟩
  generalize Check.function sig params body (s.bind .enter) = r at hrun happly
  cases hrun with
  | @ok _ t _ hstays ht =>
    rw [attempt_ok 0 happly]
    have hopen : (s.bind .enter).nesting = (0 + 1, 0) :=
      s.nesting_enter.trans (congrArg (fun nesting : Nat × Nat => (nesting.1 + 1, nesting.2)) hnesting)
    exact ⟨ht.2.2.leave, nesting_leave (hstays.nesting.trans hopen)⟩
  | @error e t _ _ _ ht =>
    rw [attempt_error 0 happly]
    exact ⟨ht.2.2.giveUp 0 e, Prod.ext ((t.symbols.depth_truncate 0).trans (Nat.zero_min _)) rfl⟩

end Confined

/-- The check of the body of a function with a result type changes nothing that checks of other expressions depend on. -/
theorem similar_checkFunction (hs : s.IsAnnotated) (hnesting : s.nesting = (0, 0)) (hcontext : s.context = none)
    (hroom : ∀ id, own id → id < s.checked.exprTypes.length) (name : String) (params : List Param)
    {body : List Expr} (span : Span) (hbody : ∀ part ∈ preorders body, ¬ own part.id) :
  s.Similar own (s.checkFunction name params body span)
    ∧ ∃ found, (s.checkFunction name params body span).checked.findings = s.checked.findings ++ found
  := by
  have hrefl : s.checked.exprTypes.SameOn own s.checked.exprTypes :=
    ⟨fun _ _ => rfl, fun id hid => ⟨hroom id hid, hroom id hid⟩⟩
  have hstart : Confined own s s :=
    ⟨rfl, rfl, rfl, rfl, hrefl, .none, (Findings.append_none _).symm⟩
  have hdepth : s.symbols.depth = 0 := congrArg Prod.fst hnesting
  unfold checkFunction
  cases hsig : s.checked.declared? name with
  | none => exact ⟨hstart.similar hnesting hnesting rfl, hstart.found⟩
  | some sig =>
    dsimp only
    split
    · obtain ⟨hend, hnesting'⟩ := Confined.attempt_function
        (s := { s with context := some ⟨name, sig.result, none, sig.typeVars⟩, loopDepth := 0 })
        { hstart with } (Prod.ext hdepth rfl) (hs sig (List.mem_of_find?_eq_some hsig)) params hbody
      rw [hdepth]
      exact ⟨Confined.similar { hend with } hnesting hnesting' hcontext.symm, hend.found⟩
    · exact ⟨hstart.similar hnesting hnesting rfl, hstart.found⟩

end CheckState

/-! ## Items -/

/-- Functions and operators have written result types. -/
def Item.IsAnnotated : Item → Prop
  | .function decl => decl.result.isSome = true
  | .operator decl => decl.result.isSome = true
  | .group .. | .foreign _ | .const _ | .expr _ => True

theorem FunctionSig.isSome_result {kind : FunctionKind} {name : String} {params : List Param} {result : Option Ty}
    {span : Span} {sig : FunctionSig} (h : ofDecl kind name params result span = .ok sig)
    (hresult : result.isSome = true ∨ ∃ library, kind = .foreign library) :
  sig.result.isSome = true
  := by
  unfold ofDecl at h
  dsimp only at h
  split at h
  · cases h
  · split at h
    · obtain rfl := Except.ok.inj h
      rfl
    · cases h
  · next hkind =>
    obtain rfl := Except.ok.inj h
    obtain hresult | ⟨library, rfl⟩ := hresult
    · simpa using hresult
    · exact absurd rfl (hkind library)

theorem Item.IsAnnotated.declares {item : Item} (h : item.IsAnnotated) :
  item.Declares fun sig => sig.result.isSome = true
  := by
  cases item with
  | function decl | operator decl => exact fun _ hsig => FunctionSig.isSome_result hsig (.inl h)
  | foreign decl => exact fun _ _ _ hsig => FunctionSig.isSome_result hsig (.inr ⟨_, rfl⟩)
  | _ => trivial

namespace BetweenItems

variable {s s' : CheckState} {before before' : Findings}

/-- What has been found so far is left out of account. -/
theorem restart (h : BetweenItems (Parallel own before before') s s') :
  BetweenItems (Parallel own s.checked.findings s'.checked.findings) s s'
  := { h with related := { h.related with
    found := ⟨.none, (Findings.append_none _).symm, (Findings.append_none _).symm⟩ } }

/-- After functions have been checked alone, the states are parallel again. -/
theorem resume (h : BetweenItems (Parallel own before before') s s') {t t' : CheckState}
    (ht : s.Similar own t) (ht' : s'.Similar own t') :
  BetweenItems (Parallel own t.checked.findings t'.checked.findings) t t'
  where
  related :=
    { (ht.symm.trans h.related.toSimilar).trans ht' with
      annotated := h.related.annotated.of_similar ht
      found := ⟨.none, (Findings.append_none _).symm, (Findings.append_none _).symm⟩ }
  nesting := ht.nesting.trans h.nesting
  context := ht.context.trans h.context

end BetweenItems

/-- Before anything is checked, the states only differ in the sizes of the tables of types. -/
theorem CheckState.parallel_initial (imports : List FunctionSig) {count count' : Nat}
    (h : ∀ id, own id → id < count ∧ id < count') :
  BetweenItems (Parallel own .none .none) (initial imports count) (initial imports count')
  := by
  have htypes : ∀ count id, (ExprTypes.unknown count).type? id = none := by
    intro count id
    rw [ExprTypes.type?, ExprTypes.unknown, List.getElem?_replicate]
    split <;> rfl
  have hsame : (ExprTypes.unknown count).SameOn own (.unknown count') := by
    refine ⟨fun id _ => by rw [htypes, htypes], fun id hid => ?_⟩
    rw [ExprTypes.unknown, ExprTypes.unknown, List.length_replicate, List.length_replicate]
    exact h id hid
  exact ⟨⟨⟨rfl, rfl, rfl, rfl, rfl, rfl, hsame⟩, List.forall_mem_nil _, .none, rfl, rfl⟩, rfl, rfl⟩

/-! ## Units -/

/-- Some items have an expression with an identifier. -/
def HaveExpr (items : List Item) (id : Nat) : Prop := ∃ item ∈ items, ∃ part ∈ preorders item.roots, part.id = id

theorem HaveExpr.of_mem {items : List Item} :
  ∀ item ∈ items, ∀ part ∈ preorders item.roots, HaveExpr items part.id
  := fun item hitem part hpart => ⟨item, hitem, part, hpart, rfl⟩

/--
A unit comes from another one by exchanging the body of one function. All other items keep the identifiers of
their expressions, and neither body uses them.
-/
structure ExchangesBody (m m' : Module) (before : List Item) (decl : FunctionDecl) (body : List Expr)
    (after : List Item) : Prop where
  items : m.flatItems = before ++ .function decl :: after
  items' : m'.flatItems = before ++ .function { decl with body := body } :: after
  lt : ∀ id, HaveExpr (before ++ after) id → id < m.exprCount ∧ id < m'.exprCount
  ne : ∀ part ∈ preorders decl.body ++ preorders body, ¬ HaveExpr (before ++ after) part.id

theorem Module.beforeBody_succ (m : Module) (imports : List FunctionSig) (i : Nat) :
  m.beforeBody imports (i + 1) = match m.flatItems[i]? with
    | none => m.beforeBody imports i
    | some item => (m.beforeBody imports i).checkBody item
  := by
  rw [beforeBody, List.take_add_one, List.foldl_append]
  cases m.flatItems[i]? <;> rfl

namespace ExchangesBody

variable {m m' : Module} {before after : List Item} {decl : FunctionDecl} {body : List Expr}
  {imports : List FunctionSig} {found found' : Findings}

variable (h : ExchangesBody m m' before decl body after)

include h

/-- All items but one are the same. -/
theorem getElem?_flatItems {i : Nat} (hi : i ≠ before.length) :
  m'.flatItems[i]? = m.flatItems[i]? ∧ ∀ item ∈ m.flatItems[i]?, item ∈ before ++ after
  := by
  rw [h.items, h.items']
  obtain hlt | hgt := Nat.lt_or_gt_of_ne hi
  · rw [List.getElem?_append_left hlt, List.getElem?_append_left hlt]
    exact ⟨rfl, fun item hitem => List.mem_append_left _ (List.mem_of_getElem? hitem)⟩
  · obtain ⟨k, hk⟩ := Nat.exists_eq_add_of_lt hgt
    have hrest : i - before.length = k + 1 := by omega
    rw [List.getElem?_append_right (Nat.le_of_lt hgt), List.getElem?_append_right (Nat.le_of_lt hgt), hrest,
      List.getElem?_cons_succ, List.getElem?_cons_succ]
    exact ⟨rfl, fun item hitem => List.mem_append_right _ (List.mem_of_getElem? hitem)⟩

/-- An item other than the function is checked in both runs. -/
theorem parallel_succ {i : Nat} (hi : i ≠ before.length)
    (hs : BetweenItems (Parallel (HaveExpr (before ++ after)) found found') (m.beforeBody imports i)
      (m'.beforeBody imports i)) :
  BetweenItems (Parallel (HaveExpr (before ++ after)) found found') (m.beforeBody imports (i + 1))
    (m'.beforeBody imports (i + 1))
  := by
  obtain ⟨hsame, hmem⟩ := h.getElem?_flatItems hi
  rw [Module.beforeBody_succ, Module.beforeBody_succ, hsame]
  cases hitem : m.flatItems[i]? with
  | none => exact hs
  | some item =>
    exact (unitFrame_parallel _ found found').checkBody (HaveExpr.of_mem item (hmem item hitem)) hs

/-- The function is checked in each run, and is found to be as before for the items after it. -/
theorem parallel_resume
    (hs : BetweenItems (Parallel (HaveExpr (before ++ after)) found found') (m.beforeBody imports before.length)
      (m'.beforeBody imports before.length)) :
  ∀ u ∈ [m, m'], (u.beforeBody imports before.length).Similar (HaveExpr (before ++ after))
        (u.beforeBody imports (before.length + 1))
      ∧ ∃ found, (u.beforeBody imports (before.length + 1)).checked.findings
        = (u.beforeBody imports before.length).checked.findings ++ found
  := by
  have hfunction : m.flatItems[before.length]? = some (.function decl) := by simp [h.items]
  have hfunction' : m'.flatItems[before.length]? = some (.function { decl with body := body }) := by simp [h.items']
  obtain ⟨hne, hne'⟩ := List.forall_mem_append.mp h.ne
  have hrelated := hs.related
  have hnext := similar_checkFunction hrelated.annotated hs.nesting hs.context
    (fun id hid => (hrelated.types.room id hid).1) decl.name decl.params decl.span hne
  have hnext' := similar_checkFunction (hrelated.annotated.of_similar hrelated.toSimilar)
    (hrelated.nesting.trans hs.nesting) (hrelated.context.trans hs.context)
    (fun id hid => (hrelated.types.room id hid).2) decl.name decl.params decl.span hne'
  simp only [List.forall_mem_cons, Module.beforeBody_succ, hfunction, hfunction']
  exact ⟨hnext, hnext', fun _ h => absurd h List.not_mem_nil⟩

variable (imports)

variable (hannotated : ∀ item ∈ m.flatItems, item.IsAnnotated)

include hannotated

/-- Declarations do not look at the body of a function. -/
theorem parallel_declared :
  BetweenItems (Parallel (HaveExpr (before ++ after)) .none .none) (m.beforeBody imports 0) (m'.beforeBody imports 0)
  := by
  have hR := unitFrame_parallel (HaveExpr (before ++ after)) .none .none
  have hinitial := parallel_initial imports h.lt
  have hsignatures : ∀ s, m'.flatItems.foldl declareSignatures s = m.flatItems.foldl declareSignatures s := by
    intro s
    rw [h.items, h.items', List.foldl_append, List.foldl_append]
    rfl
  have hconstants : ∀ s, m.flatItems.foldl declareConstant s = (before ++ after).foldl declareConstant s
      ∧ m'.flatItems.foldl declareConstant s = (before ++ after).foldl declareConstant s := by
    intro s
    rw [h.items, h.items', List.foldl_append, List.foldl_append, List.foldl_append]
    exact ⟨rfl, rfl⟩
  change BetweenItems _ (m.flatItems.foldl declareConstant _) (m'.flatItems.foldl declareConstant _)
  rw [(hconstants _).1, (hconstants _).2, hsignatures]
  refine Preserves.foldl (fun item hitem => hR.declareConstant (HaveExpr.of_mem item hitem)) ?_
  exact Preserves.foldl
    (fun item hitem => hR.declareSignatures hR.addSignature hR.giveUp (hannotated item hitem).declares) hinitial

/-- The states of both runs are parallel before each item. -/
theorem parallel_beforeBody (i : Nat) :
  BetweenItems (Parallel (HaveExpr (before ++ after)) (m.beforeBody imports i).checked.findings
    (m'.beforeBody imports i).checked.findings) (m.beforeBody imports i) (m'.beforeBody imports i)
  := by
  induction i with
  | zero => exact (h.parallel_declared imports hannotated).restart
  | succ i ih =>
    by_cases hi : i = before.length
    · subst hi
      have hnext := h.parallel_resume ih
      exact ih.resume (hnext m (by simp)).1 (hnext m' (by simp)).1
    · exact (h.parallel_succ hi ih).restart

/-- After the function, the same is found in both runs. -/
theorem parallel_later {i j : Nat} (hi : before.length < i) (hij : i ≤ j) :
  BetweenItems (Parallel (HaveExpr (before ++ after)) (m.beforeBody imports i).checked.findings
    (m'.beforeBody imports i).checked.findings) (m.beforeBody imports j) (m'.beforeBody imports j)
  := by
  induction hij with
  | refl => exact h.parallel_beforeBody imports hannotated i
  | step hij ih => exact h.parallel_succ (Nat.ne_of_gt (Nat.lt_of_lt_of_le hi hij)) ih

/-- What is found before the function is the same in both runs. -/
theorem findings_eq {i : Nat} (hi : i ≤ before.length) :
  (m'.beforeBody imports i).checked.findings = (m.beforeBody imports i).checked.findings
  := by
  have hparallel : BetweenItems (Parallel (HaveExpr (before ++ after)) .none .none) (m.beforeBody imports i)
      (m'.beforeBody imports i) := by
    induction i with
    | zero => exact h.parallel_declared imports hannotated
    | succ i ih => exact h.parallel_succ (Nat.ne_of_lt hi) (ih (Nat.le_of_lt hi))
  obtain ⟨found, hfound, hfound'⟩ := hparallel.related.found
  exact hfound'.trans hfound.symm

/-- The expressions outside of functions are checked last. -/
theorem parallel_checkModule :
  ∃ s s' : CheckState, s.checked = checkModule m imports ∧ s'.checked = checkModule m' imports
    ∧ Parallel (HaveExpr (before ++ after)) (m.beforeBody imports (before.length + 1)).checked.findings
      (m'.beforeBody imports (before.length + 1)).checked.findings s s'
  := by
  have hlength : m'.flatItems.length = m.flatItems.length := by simp [h.items, h.items']
  have hitems : ∀ s : CheckState, s.checkTopLevels m.flatItems = s.checkTopLevels (before ++ after)
      ∧ s.checkTopLevels m'.flatItems = s.checkTopLevels (before ++ after) := by
    intro s
    unfold checkTopLevels
    rw [h.items, h.items', List.foldl_append, List.foldl_append, List.foldl_append]
    exact ⟨rfl, rfl⟩
  have hbodies := h.parallel_later imports hannotated (Nat.lt_succ_self _)
    (show before.length + 1 ≤ m.flatItems.length by simp [h.items])
  rw [checkModule_eq, checkModule_eq, (hitems _).1, (hitems _).2, hlength]
  exact ⟨_, _, rfl, rfl, (unitFrame_parallel _ _ _).checkTopLevels HaveExpr.of_mem hbodies.related⟩

end ExchangesBody

/--
In a unit whose functions have written result types, the body of one function does not matter to what is found
in all other items, whatever problems are found in it: each item adds the same problems, warnings,
instantiations, tail calls and dynamic indices, and its expressions have the same types. The function only adds
findings of its own, in one place, and after it the scopes, the function around and the loops are as before.
-/
theorem checkModule_siblings {m m' : Module} {before after : List Item} {decl : FunctionDecl} {body : List Expr}
    (h : ExchangesBody m m' before decl body after) (hannotated : ∀ item ∈ m.flatItems, item.IsAnnotated)
    (imports : List FunctionSig) :
  (∀ i ≤ before.length,
      (m'.beforeBody imports i).checked.findings = (m.beforeBody imports i).checked.findings)
    ∧ (∀ i ≠ before.length, ∃ found, ∀ u ∈ [m, m'],
      (u.beforeBody imports (i + 1)).checked.findings = (u.beforeBody imports i).checked.findings ++ found)
    ∧ (∃ first own own' last : Findings,
      ((m.beforeBody imports before.length).checked.findings = first
        ∧ (m.beforeBody imports (before.length + 1)).checked.findings = first ++ own
        ∧ (checkModule m imports).findings = first ++ own ++ last)
      ∧ (m'.beforeBody imports before.length).checked.findings = first
        ∧ (m'.beforeBody imports (before.length + 1)).checked.findings = first ++ own'
        ∧ (checkModule m' imports).findings = first ++ own' ++ last)
    ∧ (∀ item ∈ before ++ after, ∀ part ∈ preorders item.roots,
      (checkModule m' imports).type? part.id = (checkModule m imports).type? part.id)
    ∧ (checkModule m' imports).globals = (checkModule m imports).globals
    ∧ ∀ u ∈ [m, m'],
      (u.beforeBody imports (before.length + 1)).nesting = (u.beforeBody imports before.length).nesting
        ∧ (u.beforeBody imports (before.length + 1)).context = (u.beforeBody imports before.length).context
        ∧ (u.beforeBody imports (before.length + 1)).symbols.bindings
          = (u.beforeBody imports before.length).symbols.bindings
  := by
  have hfirst := fun i => h.findings_eq imports hannotated (i := i)
  have hfunction := h.parallel_resume (h.parallel_beforeBody imports hannotated before.length)
  obtain ⟨s, s', hs, hs', hlast⟩ := h.parallel_checkModule imports hannotated
  refine ⟨hfirst, fun i hi => ?_, ?_, fun item hitem part hpart => ?_, ?_, fun u hu => ?_⟩
  · have hnext := h.parallel_succ hi (h.parallel_beforeBody imports hannotated i)
    obtain ⟨found, hfound, hfound'⟩ := hnext.related.found
    exact ⟨found, by simpa using ⟨hfound, hfound'⟩⟩
  · obtain ⟨own, hown⟩ := (hfunction m (by simp)).2
    obtain ⟨own', hown'⟩ := (hfunction m' (by simp)).2
    obtain ⟨last, hfound, hfound'⟩ := hlast.found
    rw [hfirst _ (Nat.le_refl _)] at hown'
    rw [← hs, ← hs']
    exact ⟨_, own, own', last, ⟨rfl, hown, hown ▸ hfound⟩, hfirst _ (Nat.le_refl _), hown', hown' ▸ hfound'⟩
  · rw [← hs, ← hs']
    exact hlast.types.type? part.id (HaveExpr.of_mem item hitem part hpart)
  · rw [← hs, ← hs']
    exact hlast.globals
  · have hsame := (hfunction u hu).1
    refine ⟨hsame.nesting, hsame.context, ?_⟩
    rw [← SymbolTable.bindings_view, hsame.symbols, SymbolTable.bindings_view]

/-- A body that ends in a problem inside of a loop, and the function after it. -/
theorem checkModule_siblings_in_loop :
  let f : FunctionDecl := ⟨"f", [], some .int, [.node 1 ⟨0, 1⟩ (.literal (.int 1))], ⟨0, 2⟩⟩
  let body : List Expr := [.node 1 ⟨0, 1⟩ (.loop [.node 2 ⟨0, 1⟩ (.scope [.node 3 ⟨0, 1⟩ (.name "x")])])]
  let g : FunctionDecl := ⟨"g", [], some .int, [.node 0 ⟨2, 3⟩ (.literal (.int 2))], ⟨2, 4⟩⟩
  let m : Module := ⟨none, [.function f, .function g], 4⟩
  let m' : Module := ⟨none, [.function { f with body := body }, .function g], 4⟩
  ExchangesBody m m' [] f body [.function g] ∧ (∀ item ∈ m.flatItems, item.IsAnnotated)
    ∧ (checkModule m []).problems = [] ∧ (checkModule m' []).problems.length = 1
    ∧ ∃ found, ∀ u ∈ [m, m'], (u.beforeBody [] 2).checked.findings = (u.beforeBody [] 1).checked.findings ++ found
  := by
  intro f body g m m'
  have hitems : m.flatItems = [.function f, .function g] := rfl
  have hexpr : ∀ id, HaveExpr [.function g] id ↔ id = 0 := by
    intro id
    simp [HaveExpr, Item.roots, g, preorders, Expr.preorder, shapePreorder, Expr.id, eq_comm]
  have hexchanges : ExchangesBody m m' [] f body [.function g] := by
    refine ⟨rfl, rfl, fun id hid => ?_, ?_⟩
    · obtain rfl := (hexpr id).mp hid
      exact ⟨by decide, by decide⟩
    · simp only [List.nil_append, hexpr]
      decide
  have hannotated : ∀ item ∈ m.flatItems, item.IsAnnotated := by
    simp [hitems, Item.IsAnnotated, f, g]
  have hsiblings := checkModule_siblings hexchanges hannotated []
  exact ⟨hexchanges, hannotated, by decide +kernel, by decide +kernel, hsiblings.2.1 1 (by decide)⟩

end FormCompiler
