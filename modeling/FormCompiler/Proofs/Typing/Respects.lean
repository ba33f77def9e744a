import FormCompiler.Proofs.Typing.Scopes

/-!
# Checks in related states

Two states may differ in something that a check does not depend on. The check `Respects` a relation of
states if in related states it has the same result and leaves related states behind. A `FormFrame` says what a
relation has to be like for that: what a check reads of two related states is the same, and the few kinds
of changes that checks make keep them related. Then every check of a form respects the relation, whatever
the form is (`FormFrame.respects_expr`).

A check that succeeds leaves as many scopes open as there were before, and is in as many loops; one that
fails may leave more scopes open.
-/

namespace FormCompiler

/-! ## Changes of a state -/

/-- What is found beside types: problems, and what is only ever added to. -/
@[ext]
structure Findings where
  problems : List TypeProblem
  warnings : List TypeWarning
  instantiations : List (Nat × Instantiation)
  tailCalls : List Nat
  dynamicIndices : List Nat

namespace Findings

/-- Nothing. -/
def none : Findings := ⟨[], [], [], [], []⟩

/-- What is found first, and what is found next. -/
def append (x y : Findings) : Findings :=
  ⟨x.problems ++ y.problems, x.warnings ++ y.warnings, x.instantiations ++ y.instantiations,
    x.tailCalls ++ y.tailCalls, x.dynamicIndices ++ y.dynamicIndices⟩

instance : Append Findings := ⟨append⟩

end Findings

namespace CheckedModule

/-- What has been found. -/
def findings (c : CheckedModule) : Findings :=
  ⟨c.problems, c.warnings, c.instantiations, c.tailCalls, c.dynamicIndices⟩

/-- Adds to what has been found. -/
def add (c : CheckedModule) (found : Findings) : CheckedModule :=
  { c with
    problems := c.problems ++ found.problems
    warnings := c.warnings ++ found.warnings
    instantiations := c.instantiations ++ found.instantiations
    tailCalls := c.tailCalls ++ found.tailCalls
    dynamicIndices := c.dynamicIndices ++ found.dynamicIndices }

/-- Marks a function as one that calls itself in tail position. -/
def markTailRecursive (c : CheckedModule) (name : String) : CheckedModule :=
  { c with
    signatures := c.signatures.map fun sig =>
      if sig.name = name then { sig with isTailRecursive := true } else sig }

/-- Takes a signature from another unit, unless that has been done before. -/
def take (c : CheckedModule) (name : String) (sig : FunctionSig) : CheckedModule :=
  if c.imported.any (·.name == name) then c else { c with imported := c.imported ++ [sig] }

end CheckedModule

namespace CheckState

/-- The number of open scopes and that of the loops around the current form. -/
def nesting (s : CheckState) : Nat × Nat := (s.symbols.depth, s.loopDepth)

/-- Changes what has been found out. -/
def learn (s : CheckState) (change : CheckedModule → CheckedModule) : CheckState :=
  { s with checked := change s.checked }

/-- Changes the bindings. -/
def bind (s : CheckState) (change : SymbolTable → SymbolTable) : CheckState :=
  { s with symbols := change s.symbols }

/-- As many scopes are open as in another state, around a form that stands in a function and in loops as there. -/
structure Stays (s t : CheckState) : Prop where
  nesting : t.nesting = s.nesting
  context : t.context.isSome = s.context.isSome
  problems : t.checked.problems = s.checked.problems

/-- Leaves the current scope, with a warning for each local that was not read. -/
def leave (s : CheckState) : CheckState :=
  { s with
    symbols := s.symbols.leave.2
    checked := { s.checked with
      warnings := s.checked.warnings ++
        (s.symbols.leave.1.filter Check.isUnread).map fun s => ⟨s.span, .unused s.name⟩ } }

theorem nesting_enter (s : CheckState) :
  (s.bind .enter).nesting = (s.symbols.depth + 1, s.loopDepth)
  := Prod.ext s.symbols.depth_enter rfl

theorem nesting_leave {s : CheckState} {depth loops : Nat} (h : s.nesting = (depth + 1, loops)) :
  s.leave.nesting = (depth, loops)
  := by
  obtain ⟨hdepth, hloops⟩ := Prod.mk.inj h
  refine Prod.ext ?_ hloops
  have hopen : s.symbols.depth = depth + 1 := hdepth
  change s.symbols.leave.2.depth = depth
  rw [(s.symbols.leave_of_depth_ne_zero (by omega)).2.2, hopen]
  rfl

end CheckState

/-! ## Relations -/

variable {α β : Type}

/-- The outcomes of a check that was run in two states, the first of which is `s`. -/
inductive Meets (R : CheckState → CheckState → Prop) (s : CheckState) :
    Except TypeProblem α × CheckState → Except TypeProblem α × CheckState → Prop
  | ok {a : α} {t t' : CheckState} (hstays : s.Stays t) (h : R t t') :
      Meets R s (.ok a, t) (.ok a, t')
  | error {e : TypeProblem} {t t' : CheckState} (hdepth : s.symbols.depth ≤ t.symbols.depth)
      (hproblems : t.checked.problems = s.checked.problems) (h : R t t') :
      Meets R s (.error e, t) (.error e, t')

/-- A check does the same in related states. -/
def Respects (R : CheckState → CheckState → Prop) (check : Check α) : Prop :=
  ∀ ⦃s s'⦄, R s s' → Meets R s (check s) (check s')

/-- A change leads from related states to related states. -/
def Preserves (R : CheckState → CheckState → Prop) (change : CheckState → CheckState) : Prop :=
  ∀ ⦃s s'⦄, R s s' → R (change s) (change s')

variable {R : CheckState → CheckState → Prop}

theorem CheckState.Stays.refl (s : CheckState) :
  s.Stays s
  := ⟨rfl, rfl, rfl⟩

/-- A change of bindings that leaves the same scopes open. -/
theorem CheckState.Stays.bind {s : CheckState} {change : SymbolTable → SymbolTable}
    (hdepth : (change s.symbols).depth = s.symbols.depth) :
  s.Stays (s.bind change)
  := ⟨Prod.ext hdepth rfl, rfl, rfl⟩

theorem Meets.of_stays {s t : CheckState} {r r' : Except TypeProblem α × CheckState} (hstays : s.Stays t)
    (h : Meets R t r r') :
  Meets R s r r'
  := by
  cases h with
  | ok hstays' h =>
    exact .ok ⟨hstays'.nesting.trans hstays.nesting, hstays'.context.trans hstays.context,
      hstays'.problems.trans hstays.problems⟩ h
  | error hdepth hproblems h =>
    have hsame : t.symbols.depth = s.symbols.depth := congrArg Prod.fst hstays.nesting
    exact .error (hsame ▸ hdepth) (hproblems.trans hstays.problems) h

/-- A problem that is found at once. -/
theorem Meets.fail {s s' : CheckState} (e : TypeProblem) (h : R s s') :
  Meets R s ((.error e, s) : Except TypeProblem α × CheckState) (.error e, s')
  := .error (Nat.le_refl _) rfl h

namespace Respects

variable {x : Check α}

theorem bind {k : α → Check β} (hx : Respects R x) (hk : ∀ a, Respects R (k a)) :
  Respects R (x >>= k)
  := by
  intro s s' h
  have hrun := hx h
  rw [Ensures.bind_apply, Ensures.bind_apply]
  generalize x s = r, x s' = r' at hrun ⊢
  cases hrun with
  | ok hstays ht => exact (hk _ ht).of_stays hstays
  | error hdepth hproblems ht => exact .error hdepth hproblems ht

theorem pure (a : α) :
  Respects R (pure a)
  := fun _ _ h => .ok (.refl _) h

theorem throw (e : TypeProblem) :
  Respects R (throw e : Check α)
  := fun _ _ h => .fail e h

theorem fail (span : Span) (kind : ProblemKind) :
  Respects R (Check.fail span kind : Check α)
  := throw _

/-- What is read of related states comes to the same. -/
theorem bindGet {k : CheckState → Check β} (hsame : ∀ ⦃s s'⦄, R s s' → k s' = k s)
    (hk : ∀ s, Respects R (k s)) :
  Respects R (get >>= k)
  := by
  intro s s' h
  change Meets R s (k s s) (k s' s')
  rw [hsame h]
  exact hk s h

theorem modify {change : CheckState → CheckState} (h : Preserves R change)
    (hstays : ∀ s : CheckState, s.Stays (change s)) :
  Respects R (modify change)
  := fun s _ hs => .ok (hstays s) (h hs)

theorem map {k : α → β} (h : Respects R x) :
  Respects R (k <$> x)
  := by
  rw [map_eq_pure_bind]
  exact h.bind fun _ => .pure _

theorem discard (h : Respects R x) :
  Respects R (discard x)
  := h.map

theorem ite {p : Prop} [Decidable p] {y : Check α} (hx : Respects R x) (hy : Respects R y) :
  Respects R (if p then x else y)
  := by
  split
  · exact hx
  · exact hy

/-- A check that may be left out. -/
theorem bind_ite {p : Prop} [Decidable p] {x : Check Unit} {k : Unit → Check β} (hx : Respects R x)
    (hk : Respects R (k ())) :
  Respects R (if p then x >>= k else k ())
  := ite (hx.bind fun _ => hk) hk

end Respects

/-- What declarations rely on, and the changes that they make. -/
structure DeclareFrame (R : CheckState → CheckState → Prop) : Prop where
  nesting : ∀ ⦃s s'⦄, R s s' → s'.nesting = s.nesting
  peek? : ∀ ⦃s s'⦄, R s s' → ∀ name,
    (s'.symbols.peek? name).map Symbol.unread = (s.symbols.peek? name).map Symbol.unread
  push : ∀ symbol, Preserves R (·.bind (·.push symbol))
  add : ∀ found, found.problems = [] → Preserves R (·.learn (·.add found))

/-- What checks of forms rely on, and the changes that they make; `own` holds of the expressions of the forms. -/
structure FormFrame (R : CheckState → CheckState → Prop) (own : Nat → Prop) : Prop extends DeclareFrame R where
  context : ∀ ⦃s s'⦄, R s s' → s'.context = s.context
  declared? : ∀ ⦃s s'⦄, R s s' → ∀ name,
    (s'.checked.declared? name).map FunctionSig.plain = (s.checked.declared? name).map FunctionSig.plain
  offered? : ∀ ⦃s s'⦄, R s s' → ∀ name, s.symbols.peek? name = none →
    s'.imports.find? (·.name == name) = s.imports.find? (·.name == name)
  type? : ∀ ⦃s s'⦄, R s s' → ∀ id, own id → s'.checked.type? id = s.checked.type? id
  setContext : ∀ change : Option FunctionContext → Option FunctionContext,
    Preserves R fun s => { s with context := change s.context }
  setLoopDepth : ∀ change : Nat → Nat, Preserves R fun s => { s with loopDepth := change s.loopDepth }
  enter : Preserves R (·.bind .enter)
  leave : ∀ ⦃s s' t t'⦄, R s s' → R t t' → t.symbols.depth = s.symbols.depth + 1 → R t.leave t'.leave
  markUsed : ∀ name, Preserves R (·.bind (·.markUsed name))
  take : ∀ name sig, Preserves R (·.learn (·.take name sig))
  markTailRecursive : ∀ name, Preserves R (·.learn (·.markTailRecursive name))
  record : ∀ id type, own id → Preserves R (·.learn fun c => { c with exprTypes := c.exprTypes.record id type })
  coerce : ∀ expected e, (∀ part ∈ e.preorder, own part.id) → ∀ ⦃s s'⦄, R s s' →
    (coerceLiteral expected e s'.checked.exprTypes).1 = (coerceLiteral expected e s.checked.exprTypes).1
      ∧ R (s.learn fun c => { c with exprTypes := (coerceLiteral expected e c.exprTypes).2 })
        (s'.learn fun c => { c with exprTypes := (coerceLiteral expected e c.exprTypes).2 })

/-! ## Actions -/

namespace Check

variable {s : CheckState}

theorem declare_apply (symbol : Symbol) :
  declare symbol s = match s.symbols.peek? symbol.name with
    | none => (.ok (), s.bind (·.push symbol))
    | some bound =>
      if s.symbols.isInnermost bound then
        (.error (symbolProblem symbol.name symbol.span (.redeclared bound.span)), s)
      else (if symbol.storage = .stack then warn symbol.span (.shadowed symbol.name bound.span) else pure ())
        (s.bind (·.push symbol))
  := by
  have hget : (get : Check CheckState) s = (.ok s, s) := rfl
  rw [declare, Ensures.bind_apply, hget]
  dsimp only
  rw [SymbolTable.declare_eq]
  cases s.symbols.peek? symbol.name with
  | none => rfl
  | some bound =>
    dsimp only
    split <;> rfl

theorem name_apply (text : String) (span : Span) :
  name text span s = match s.symbols.peek? text with
    | none => (.error (symbolProblem text span .unbound), s)
    | some bound => (if bound.isCallable then fail span (.misuse (.functionAsValue text)) else pure bound.type)
      (s.bind (·.markUsed text))
  := by
  have hget : (get : Check CheckState) s = (.ok s, s) := rfl
  rw [name, Ensures.bind_apply, hget]
  dsimp only
  rw [SymbolTable.lookup_eq]
  cases s.symbols.peek? text with
  | none => rfl
  | some bound =>
    dsimp only
    change (if bound.isCallable = true then _ else _ : Check Ty) (s.bind (·.markUsed text)) = _
    split <;> rfl

theorem callee_apply (text : String) (span : Span) :
  callee text span s = match s.symbols.peek? text with
    | none => match s.imports.find? (·.name == text) with
      | none => (.error (symbolProblem text span .unbound), s)
      | some sig => (.ok sig, s.learn (·.take text sig))
    | some bound =>
      (if bound.isCallable then
        match s.checked.declared? text with
        | some sig => pure sig
        | none => fail span (.misuse (.noSignature text))
      else fail span (.misuse (.notFunction text))) (s.bind (·.markUsed text))
  := by
  have hget : (get : Check CheckState) s = (.ok s, s) := rfl
  rw [callee, Ensures.bind_apply, hget]
  dsimp only
  rw [SymbolTable.lookup_eq]
  cases s.symbols.peek? text with
  | none =>
    dsimp only
    cases s.imports.find? (·.name == text) with
    | none => rfl
    | some sig =>
      dsimp only [CheckState.learn, CheckedModule.take]
      split <;> rfl
  | some bound =>
    dsimp only
    change (ite (bound.isCallable = true) _ _ : Check FunctionSig) (s.bind (·.markUsed text)) = _
    split <;> rfl

end Check

theorem Respects.learn {change : CheckedModule → CheckedModule} (h : Preserves R (·.learn change))
    (hproblems : ∀ c, (change c).problems = c.problems) :
  Respects R (Check.learn change)
  := .modify h fun s => ⟨rfl, rfl, hproblems s.checked⟩

namespace DeclareFrame

variable (hR : DeclareFrame R)

include hR

/-- A name is visible in both states or in none, and then its bindings differ at most in whether they have been used. -/
theorem peek?_cases {s s' : CheckState} (h : R s s') (name : String) :
  (s.symbols.peek? name = none ∧ s'.symbols.peek? name = none)
    ∨ ∃ bound bound', s.symbols.peek? name = some bound ∧ s'.symbols.peek? name = some bound'
      ∧ bound'.unread = bound.unread
  := by
  have hpeek := hR.peek? h name
  cases hbound : s.symbols.peek? name with
  | none =>
    rw [hbound, Option.map_none, Option.map_eq_none_iff] at hpeek
    exact .inl ⟨rfl, hpeek⟩
  | some bound =>
    rw [hbound, Option.map_some, Option.map_eq_some_iff] at hpeek
    obtain ⟨bound', hbound', hunread⟩ := hpeek
    exact .inr ⟨bound, bound', rfl, hbound', hunread⟩

/-- A check that only adds to what has been found. -/
theorem respects_add {change : CheckedModule → CheckedModule} (found : Findings) (hnone : found.problems = [])
    (h : ∀ c, change c = c.add found) :
  Respects R (Check.learn change)
  := by
  obtain rfl : change = (·.add found) := funext h
  exact .learn (hR.add found hnone) fun c => by rw [CheckedModule.add, hnone, List.append_nil]

theorem respects_warn (span : Span) (kind : WarningKind) :
  Respects R (Check.warn span kind)
  := hR.respects_add ⟨[], [⟨span, kind⟩], [], [], []⟩ rfl fun c => by simp [CheckedModule.add]

theorem respects_declare (symbol : Symbol) :
  Respects R (Check.declare symbol)
  := by
  intro s s' h
  have hpush := hR.push symbol h
  rw [Check.declare_apply, Check.declare_apply]
  obtain ⟨hnone, hnone'⟩ | ⟨bound, bound', hbound, hbound', hunread⟩ := hR.peek?_cases h symbol.name
  · rw [hnone, hnone']
    exact .ok (.bind (s.symbols.depth_push symbol)) hpush
  · have hspan : bound'.span = bound.span :=
      show bound'.unread.span = bound.unread.span from congrArg _ hunread
    have hdepth : bound'.depth = bound.depth :=
      show bound'.unread.depth = bound.unread.depth from congrArg _ hunread
    have hinnermost : s'.symbols.isInnermost bound' = s.symbols.isInnermost bound := by
      rw [SymbolTable.isInnermost, SymbolTable.isInnermost, hdepth,
        show s'.symbols.depth = s.symbols.depth from congrArg Prod.fst (hR.nesting h)]
    rw [hbound, hbound']
    dsimp only
    rw [hinnermost, hspan]
    split
    · exact .fail _ h
    · refine Meets.of_stays (t := s.bind (·.push symbol)) (.bind (s.symbols.depth_push symbol)) ?_
      exact Respects.ite (hR.respects_warn _ _) (.pure _) hpush

end DeclareFrame

/-! ## Forms -/

namespace FormFrame

variable {own : Nat → Prop} (hR : FormFrame R own)

include hR

theorem respects_record {id : Nat} (hid : own id) (type : Ty) :
  Respects R (Check.record id type)
  := .learn (hR.record id type hid) fun _ => rfl

omit hR in
theorem inScope_apply {s : CheckState} (check : Check α) :
  Check.inScope check s = match check (s.bind .enter) with
    | (.ok a, t) => (.ok a, t.leave)
    | (.error e, t) => (.error e, t)
  := by
  change (check >>= fun a => Check.leaveScope >>= fun _ => pure a : Check α) (s.bind .enter) = _
  rw [Ensures.bind_apply]
  rcases check (s.bind .enter) with ⟨_ | _, _⟩ <;> rfl

theorem respects_inScope {check : Check α} (hcheck : Respects R check) :
  Respects R (Check.inScope check)
  := by
  intro s s' h
  have hrun := hcheck (hR.enter h)
  rw [inScope_apply, inScope_apply]
  generalize check (s.bind .enter) = r, check (s'.bind .enter) = r' at hrun ⊢
  cases hrun with
  | @ok a t t' hstays ht =>
    have hnesting : t.nesting = (s.symbols.depth + 1, s.loopDepth) := hstays.nesting.trans s.nesting_enter
    exact .ok ⟨CheckState.nesting_leave hnesting, hstays.context, hstays.problems⟩
      (hR.leave h ht (congrArg Prod.fst hnesting))
  | error hdepth hproblems ht =>
    exact .error (Nat.le_of_succ_le (s.symbols.depth_enter.ge.trans hdepth)) hproblems ht

theorem respects_inLoop {check : Check α} (hcheck : Respects R check) :
  Respects R (Check.inLoop check)
  := by
  intro s s' h
  have hrun := hcheck (hR.setLoopDepth (· + 1) h)
  have happly : ∀ s : CheckState, Check.inLoop check s = match check { s with loopDepth := s.loopDepth + 1 } with
      | (.ok a, t) => (.ok a, { t with loopDepth := t.loopDepth - 1 })
      | (.error e, t) => (.error e, t) := by
    intro s
    change (check >>= fun a => modify _ >>= fun _ => pure a : Check α) { s with loopDepth := s.loopDepth + 1 } = _
    rw [Ensures.bind_apply]
    rcases check { s with loopDepth := s.loopDepth + 1 } with ⟨_ | _, _⟩ <;> rfl
  rw [happly, happly]
  generalize check { s with loopDepth := _ } = r, check { s' with loopDepth := _ } = r' at hrun ⊢
  cases hrun with
  | @ok a t t' hstays ht =>
    obtain ⟨hdepth, hloop⟩ := Prod.mk.inj hstays.nesting
    refine .ok ⟨Prod.ext hdepth ?_, hstays.context, hstays.problems⟩ (hR.setLoopDepth (· - 1) ht)
    change t.loopDepth - 1 = s.loopDepth
    rw [hloop]
    rfl
  | error hdepth hproblems ht => exact .error hdepth hproblems ht

theorem respects_annotated (type : Ty) (span : Span) :
  Respects R (Check.annotated type span)
  := by
  refine .bindGet (fun s s' h => by rw [hR.context h]) fun s => ?_
  dsimp only
  split
  · exact .fail _ _
  · exact .pure _

theorem respects_coerce (expected : Ty) {e : Expr} (he : ∀ part ∈ e.preorder, own part.id) :
  Respects R (Check.coerce expected e)
  := by
  intro s s' h
  have happly : ∀ s : CheckState, Check.coerce expected e s = (.ok (coerceLiteral expected e s.checked.exprTypes).1,
      s.learn fun c => { c with exprTypes := (coerceLiteral expected e c.exprTypes).2 }) := fun _ => rfl
  obtain ⟨hfits, hlearn⟩ := hR.coerce expected e he h
  rw [happly, happly, hfits]
  exact .ok ⟨rfl, rfl, rfl⟩ hlearn

theorem respects_expectAssignable (expected : Ty) {e : Expr} (found : Ty) (he : ∀ part ∈ e.preorder, own part.id) :
  Respects R (Check.expectAssignable expected e found)
  := .ite (.pure _) (.bind (hR.respects_coerce expected he) fun _ => .ite (.pure _) (.throw _))

/-! ## Parts of forms -/

theorem respects_name (text : String) (span : Span) :
  Respects R (Check.name text span)
  := by
  intro s s' h
  have hused := hR.markUsed text h
  rw [Check.name_apply, Check.name_apply]
  obtain ⟨hnone, hnone'⟩ | ⟨bound, bound', hbound, hbound', hunread⟩ := hR.peek?_cases h text
  · rw [hnone, hnone']
    exact .fail _ h
  · have htype : bound'.type = bound.type :=
      show bound'.unread.type = bound.unread.type from congrArg _ hunread
    have hcallable : bound'.isCallable = bound.isCallable :=
      show bound'.unread.isCallable = bound.unread.isCallable from congrArg _ hunread
    rw [hbound, hbound']
    dsimp only
    rw [htype, hcallable]
    refine Meets.of_stays (t := s.bind (·.markUsed text)) (.bind (s.symbols.depth_markUsed text)) ?_
    exact Respects.ite (.fail _ _) (.pure _) hused

/-- What is done with the signature of a callee does not depend on whether it calls itself in tail position. -/
theorem respects_callee_bind (text : String) (span : Span) {k : FunctionSig → Check β}
    (hplain : ∀ sig, k sig = k sig.plain) (hk : ∀ sig, Respects R (k sig)) :
  Respects R (Check.callee text span >>= k)
  := by
  intro s s' h
  have hused := hR.markUsed text h
  rw [Ensures.bind_apply, Ensures.bind_apply, Check.callee_apply, Check.callee_apply]
  obtain ⟨hnone, hnone'⟩ | ⟨bound, bound', hbound, hbound', hunread⟩ := hR.peek?_cases h text
  · rw [hnone, hnone']
    dsimp only
    rw [hR.offered? h text hnone]
    cases s.imports.find? (·.name == text) with
    | none => exact .fail _ h
    | some sig =>
      have htake : (s.checked.take text sig).problems = s.checked.problems := by
        unfold CheckedModule.take
        split <;> rfl
      exact Meets.of_stays (t := s.learn (·.take text sig)) ⟨rfl, rfl, htake⟩ (hk sig (hR.take text sig h))
  · have hcallable : bound'.isCallable = bound.isCallable :=
      show bound'.unread.isCallable = bound.unread.isCallable from congrArg _ hunread
    have hdeclared := hR.declared? h text
    rw [hbound, hbound']
    dsimp only
    rw [hcallable]
    refine Meets.of_stays (t := s.bind (·.markUsed text)) (.bind (s.symbols.depth_markUsed text)) ?_
    by_cases hcall : bound.isCallable = true
    · rw [if_pos hcall, if_pos hcall]
      cases hsig : s.checked.declared? text with
      | none =>
        rw [hsig, Option.map_none, Option.map_eq_none_iff] at hdeclared
        rw [hdeclared]
        exact .fail _ hused
      | some sig =>
        rw [hsig, Option.map_some, Option.map_eq_some_iff] at hdeclared
        obtain ⟨sig', hsig', hsame⟩ := hdeclared
        rw [hsig']
        change Meets R _ (k sig _) (k sig' _)
        rw [hplain sig', hsame, ← hplain sig]
        exact hk sig hused
    · rw [if_neg hcall, if_neg hcall]
      exact .fail _ hused

theorem respects_argument (σ : Substitution) (param : Ty) {arg : Expr} (found : Ty)
    (harg : ∀ part ∈ arg.preorder, own part.id) :
  Respects R (Check.argument σ param arg found)
  := by
  refine .ite ?_ (.bind (hR.respects_expectAssignable _ _ harg) fun _ => .pure _)
  dsimp only
  split
  · exact .pure _
  · exact .throw _
  · exact .fail _ _

theorem respects_call (tail : Bool) (id : Nat) (span : Span) (text : String) (sig : FunctionSig)
    (σ : Substitution) :
  Respects R (Check.call tail id span text sig σ)
  := by
  unfold Check.call
  split
  · exact .fail _ _
  · refine .bind_ite (hR.respects_add ⟨[], [], [(id, ⟨text, σ⟩)], [], []⟩ rfl fun c => by simp [CheckedModule.add]) ?_
    refine .bindGet (fun s s' h => by rw [hR.context h]) fun s => .ite ?_ (.pure _)
    refine .bind (hR.respects_add ⟨[], [], [], [id], []⟩ rfl fun c => by simp [CheckedModule.add]) fun _ => ?_
    exact .bind (.learn (hR.markTailRecursive text) fun _ => rfl) fun _ => .pure _

theorem respects_operands {lhs rhs : Expr} (left right : Ty) (hlhs : ∀ part ∈ lhs.preorder, own part.id)
    (hrhs : ∀ part ∈ rhs.preorder, own part.id) :
  Respects R (Check.operands lhs rhs left right)
  := .ite (.pure _) (.bind (hR.respects_coerce _ hrhs) fun _ => .ite (.pure _)
    (.bind (hR.respects_coerce _ hlhs) fun _ => .ite (.pure _) (.throw _)))

omit hR in
theorem respects_binary (op : BinaryOp) (span : Span) (type : Ty) :
  Respects R (Check.binary op span type)
  := .ite (.pure _) (.bind (.fail _ _) fun _ => .pure _)

omit hR in
theorem respects_unary (op : UnaryOp) (span : Span) (type : Ty) :
  Respects R (Check.unary op span type)
  := by
  cases op <;> exact .ite (.pure _) (.bind (.fail _ _) fun _ => .pure _)

theorem respects_element (id : Nat) (target index : Expr) (targetType indexType : Ty) :
  Respects R (Check.element id target index targetType indexType)
  := by
  have hrest : ∀ {rest : Check Ty}, Respects R rest →
      Respects R (if indexType.isInteger = true then rest else do
        throw (.mismatch index.span .int indexType)
        rest) :=
    fun h => .ite h (.bind (.throw _) fun _ => h)
  cases targetType with
  | array element length =>
    refine hrest ?_
    dsimp only
    split
    · exact .ite (.bind (.fail _ _) fun _ => .pure _) (.pure _)
    · refine .bind (hR.respects_add ⟨[], [], [], [], [id]⟩ rfl fun c => ?_) fun _ => .pure _
      simp [CheckedModule.add]
  | tuple elements =>
    refine hrest ?_
    dsimp only
    split
    · exact .fail _ _
    · refine .ite (.bind (.fail _ _) fun _ => ?_) ?_
      all_goals
        split
        · exact .pure _
        · exact .fail _ _
  | _ => exact hrest (.fail _ _)

/-- A name that is assigned to is refused alike, or stands for the same. -/
theorem assignTarget_cases {s s' : CheckState} (h : R s s') (text : String) :
  (∃ e, s.symbols.assignTarget text = .error e ∧ s'.symbols.assignTarget text = .error e)
    ∨ ∃ bound bound', s.symbols.assignTarget text = .ok bound ∧ s'.symbols.assignTarget text = .ok bound'
      ∧ bound'.unread = bound.unread
  := by
  unfold SymbolTable.assignTarget
  obtain ⟨hnone, hnone'⟩ | ⟨bound, bound', hbound, hbound', hsame⟩ := hR.peek?_cases h text
  · rw [hnone, hnone']
    exact .inl ⟨_, rfl, rfl⟩
  · have hmutable : bound'.isMutable = bound.isMutable :=
      show bound'.unread.isMutable = bound.unread.isMutable from congrArg _ hsame
    have hspan : bound'.span = bound.span :=
      show bound'.unread.span = bound.unread.span from congrArg _ hsame
    rw [hbound, hbound']
    dsimp only
    rw [hmutable, hspan]
    split
    · exact .inr ⟨bound, bound', rfl, rfl, hsame⟩
    · exact .inl ⟨_, rfl, rfl⟩

theorem respects_elementTarget (target : Expr) :
  Respects R (Check.elementTarget target)
  := by
  unfold Check.elementTarget
  split
  · next text _ =>
    refine .bindGet (fun s s' h => ?_) fun s => ?_
    · obtain ⟨e, he, he'⟩ | ⟨bound, bound', hbound, hbound', -⟩ := hR.assignTarget_cases h text
      · rw [he, he']
      · rw [hbound, hbound']
    · split
      · exact .pure _
      · exact .throw _
  · exact .fail _ _

omit hR in
/-- An element is accessed through expressions in it. -/
theorem accessPath_subset (e : Expr) :
  e.accessPath ⊆ e.preorder
  := by
  fun_induction Expr.accessPath e with
  | case1 id span target index ih =>
    rw [Expr.preorder, shapePreorder]
    exact List.cons_subset_cons _ (List.subset_append_of_subset_left _ ih)
  | case2 e _ =>
    cases e
    simp [Expr.preorder]

theorem respects_noTuples {target : Expr} (htarget : ∀ part ∈ target.preorder, own part.id) :
  Respects R (Check.noTuples target)
  := by
  refine .bindGet (fun s s' h => ?_) fun _ => .ite (.fail _ _) (.pure _)
  have htype : ∀ e ∈ target.accessPath, s'.checked.exprTypes.type? e.id = s.checked.exprTypes.type? e.id :=
    fun e he => hR.type? h e.id (htarget e (accessPath_subset target he))
  refine congrArg (fun isTuple : Bool =>
    if isTuple = true then Check.fail target.span (.misuse .tupleAssignment) else Pure.pure ()) ?_
  rw [Bool.eq_iff_iff, List.any_eq_true, List.any_eq_true]
  refine exists_congr fun e => and_congr_right fun he => ?_
  rw [htype e he]

theorem respects_bindLocal (isMutable : Bool) (text : String) (span : Span) (type : Option Ty) {init : Expr}
    (found : Ty) (hinit : ∀ part ∈ init.preorder, own part.id) :
  Respects R (Check.bindLocal isMutable text span type init found)
  := by
  have hdeclare : ∀ type, Respects R (do
      Check.declare (.ofStorage .stack isMutable text type span)
      return .none : Check Ty) := fun _ => .bind (hR.respects_declare _) fun _ => .pure _
  unfold Check.bindLocal
  cases type with
  | none => exact .ite (.bind (.fail _ _) fun _ => hdeclare _) (hdeclare _)
  | some written =>
    exact .bind (hR.respects_annotated _ _) fun _ => .bind (hR.respects_expectAssignable _ _ hinit) fun _ => hdeclare _

theorem respects_resource (text : String) (span : Span) (init : Expr) (found : Ty) :
  Respects R (Check.resource text span init found)
  := by
  unfold Check.resource
  exact .ite (.bind (.fail _ _) fun _ => hR.respects_declare _) (hR.respects_declare _)

theorem respects_branches {thenBranch elseBranch : Expr} (thenType elseType : Ty)
    (hthen : ∀ part ∈ thenBranch.preorder, own part.id) (helse : ∀ part ∈ elseBranch.preorder, own part.id) :
  Respects R (Check.branches thenBranch elseBranch thenType elseType)
  := .ite (.pure _) (.ite (.pure _) (.bind (hR.respects_coerce _ helse) fun _ => .ite (.pure _)
    (.bind (hR.respects_coerce _ hthen) fun _ => .ite (.pure _) (.throw _))))

theorem respects_loopJump (jump : StrayJump) (span : Span) :
  Respects R (Check.loopJump jump span)
  := by
  refine .bindGet (fun s s' h => ?_) fun _ => .bind_ite (.fail _ _) (.pure _)
  rw [show s'.loopDepth = s.loopDepth from congrArg Prod.snd (hR.nesting h)]

theorem respects_returning (span : Span) :
  Respects R (Check.returning span)
  := by
  refine .bindGet (fun s s' h => by rw [hR.context h]) fun s => ?_
  split
  · exact .pure _
  · exact .fail _ _

theorem respects_returned (span : Span) {value : Option Expr} (expected found : Ty)
    (hvalue : ∀ part ∈ optionPreorder value, own part.id) :
  Respects R (Check.returned span value expected found)
  := by
  cases value with
  | none => exact .ite (.pure _) (.throw _)
  | some e => exact hR.respects_expectAssignable _ _ hvalue

theorem respects_ret (span : Span) (declared : Option Ty) {value : Option Expr} (found : Ty)
    (hvalue : ∀ part ∈ optionPreorder value, own part.id) :
  Respects R (Check.ret span declared value found)
  := by
  cases declared with
  | some result => exact .bind (hR.respects_returned _ _ _ hvalue) fun _ => .pure _
  | none =>
    refine .bindGet (fun s s' h => by rw [hR.context h]) fun s => ?_
    split
    · exact .bind (hR.respects_returned _ _ _ hvalue) fun _ => .pure _
    · exact .bind (.modify (hR.setContext _) fun s => ⟨rfl, Option.isSome_map, rfl⟩) fun _ => .pure _

omit hR in
theorem respects_condition (span : Span) (found : Ty) :
  Respects R (Check.condition span found)
  := .ite (.pure _) (.throw _)

theorem respects_freeable (pointer : Expr) :
  Respects R (Check.freeable pointer)
  := by
  unfold Check.freeable
  split
  · next text _ =>
    refine .bindGet (fun s s' h => ?_) fun _ => .ite (.fail _ _) (.pure _)
    obtain ⟨hnone, hnone'⟩ | ⟨bound, bound', hbound, hbound', hunread⟩ := hR.peek?_cases h text
    · rw [hnone, hnone']
    · have hresource : bound'.isResource = bound.isResource :=
        show bound'.unread.isResource = bound.unread.isResource from congrArg _ hunread
      rw [hbound, hbound', Option.any_some, Option.any_some, hresource]
  · exact .pure _

/-! ## Expressions -/

omit hR

mutual

theorem respects_expr (hR : FormFrame R own) (tail : Bool) : ∀ e : Expr, (∀ part ∈ e.preorder, own part.id) →
    Respects R (Check.expr tail e)
  | .node id span shape, h =>
    .bind (hR.respects_form tail id span shape (List.forall_mem_cons.mp h).2) fun _ =>
      .bind (hR.respects_record (List.forall_mem_cons.mp h).1 _) fun _ => .pure _

theorem respects_form (hR : FormFrame R own) (tail : Bool) (id : Nat) (span : Span) : ∀ shape : Shape Expr,
    (∀ part ∈ shapePreorder shape, own part.id) → Respects R (Check.form tail id span shape)
  | .literal _, _ => .pure _
  | .name _, _ => hR.respects_name _ _
  | .call text args, h => by
    have hcall : ∀ sig : FunctionSig, Respects R (do
        let σ ← Check.arguments .empty sig.paramTypes args
        Check.call tail id span text sig σ) :=
      fun _ => .bind (hR.respects_arguments _ _ args h) fun _ => hR.respects_call _ _ _ _ _ _
    exact hR.respects_callee_bind _ _ (fun _ => rfl) fun _ => .bind_ite (.fail _ _) (hcall _)
  | .binary _ lhs rhs, h => by
    obtain ⟨hlhs, hrhs⟩ := List.forall_mem_append.mp h
    exact .bind (hR.respects_expr false lhs hlhs) fun _ => .bind (hR.respects_expr false rhs hrhs) fun _ =>
      .bind (hR.respects_operands _ _ hlhs hrhs) fun _ => respects_binary _ _ _
  | .unary _ operand, h => .bind (hR.respects_expr false operand h) fun _ => respects_unary _ _ _
  | .declare _ _ _ init, h =>
    .bind (hR.respects_expr false init h) fun _ => hR.respects_bindLocal _ _ _ _ _ h
  | .assign text value, h => by
    refine .bindGet (fun s s' hs => ?_) fun s => ?_
    · obtain ⟨e, he, he'⟩ | ⟨bound, bound', hbound, hbound', hsame⟩ := hR.assignTarget_cases hs text
      · rw [he, he']
      · have htype : bound'.type = bound.type := show bound'.unread.type = bound.unread.type from congrArg _ hsame
        rw [hbound, hbound']
        dsimp only
        rw [htype]
    · split
      · exact .throw _
      · exact .bind (hR.respects_expr false value h) fun _ =>
          .bind (hR.respects_expectAssignable _ _ h) fun _ => .pure _
  | .assignElement target index value, h => by
    obtain ⟨htarget, hvalue⟩ := List.forall_mem_append.mp h
    obtain ⟨htarget, hindex⟩ := List.forall_mem_append.mp htarget
    exact .bind (hR.respects_elementTarget _) fun _ => .bind (hR.respects_expr false target htarget) fun _ =>
      .bind (hR.respects_expr false index hindex) fun _ => .bind (hR.respects_element _ _ _ _ _) fun _ =>
      .bind (hR.respects_noTuples htarget) fun _ => .bind (hR.respects_expr false value hvalue) fun _ =>
      .bind (hR.respects_expectAssignable _ _ hvalue) fun _ => .pure _
  | .scope items, h => hR.respects_inScope (hR.respects_body tail false items h)
  | .cond _ test thenBranch none, h => by
    obtain ⟨h, -⟩ := List.forall_mem_append.mp h
    obtain ⟨htest, hthen⟩ := List.forall_mem_append.mp h
    exact .bind (hR.respects_expr false test htest) fun _ => .bind (respects_condition _ _) fun _ =>
      .bind (hR.respects_inScope (hR.respects_expr false thenBranch hthen)) fun _ => .pure _
  | .cond _ test thenBranch (some elseBranch), h => by
    obtain ⟨h, helse⟩ := List.forall_mem_append.mp h
    obtain ⟨htest, hthen⟩ := List.forall_mem_append.mp h
    exact .bind (hR.respects_expr false test htest) fun _ => .bind (respects_condition _ _) fun _ =>
      .bind (hR.respects_inScope (hR.respects_expr tail thenBranch hthen)) fun _ =>
      .bind (hR.respects_inScope (hR.respects_expr tail elseBranch helse)) fun _ =>
      hR.respects_branches _ _ hthen helse
  | .whileLoop _ test items, h => by
    obtain ⟨htest, hitems⟩ := List.forall_mem_append.mp h
    exact .bind (hR.respects_expr false test htest) fun _ => .bind (respects_condition _ _) fun _ =>
      .bind (hR.respects_inLoop (hR.respects_inScope (hR.respects_body false false items hitems))) fun _ => .pure _
  | .forLoop init test step items, h => by
    obtain ⟨h, hstep⟩ := List.forall_mem_append.mp h
    obtain ⟨h, hitems⟩ := List.forall_mem_append.mp h
    obtain ⟨hinit, htest⟩ := List.forall_mem_append.mp h
    exact hR.respects_inScope (.bind (hR.respects_expr false init hinit) fun _ =>
      .bind (hR.respects_expr false test htest) fun _ => .bind (respects_condition _ _) fun _ =>
      .bind (hR.respects_inLoop (.bind (hR.respects_inScope (hR.respects_body false false items hitems)) fun _ =>
        hR.respects_expr false step hstep)) fun _ => .pure _)
  | .loop items, h =>
    .bind (hR.respects_inLoop (hR.respects_inScope (hR.respects_body false false items h))) fun _ => .pure _
  | .breakLoop, _ | .continueLoop, _ => hR.respects_loopJump _ _
  | .ret none, h => .bind (hR.respects_returning _) fun _ => hR.respects_ret _ _ _ h
  | .ret (some value), h =>
    .bind (hR.respects_returning _) fun _ => .bind (hR.respects_expr true value h) fun _ => hR.respects_ret _ _ _ h
  | .element target index, h => by
    obtain ⟨htarget, hindex⟩ := List.forall_mem_append.mp h
    exact .bind (hR.respects_expr false target htarget) fun _ =>
      .bind (hR.respects_expr false index hindex) fun _ => hR.respects_element _ _ _ _ _
  | .array [], _ => .fail _ _
  | .array (first :: rest), h => by
    obtain ⟨hfirst, hrest⟩ := List.forall_mem_append.mp h
    exact .bind (hR.respects_expr false first hfirst) fun _ =>
      .bind (hR.respects_elements _ rest hrest) fun _ => .pure _
  | .tuple items, h => .bind (hR.respects_exprs items h) fun _ => .pure _
  | .length target, h => by
    simp only [Check.form]
    refine .bind (hR.respects_expr false target h) fun type => ?_
    split
    · exact .pure _
    · exact .fail _ _
  | .alloc size, h =>
    .bind (hR.respects_expr false size h) fun _ => .ite (.pure _) (.bind (.throw _) fun _ => .pure _)
  | .free pointer, h =>
    .bind (hR.respects_freeable _) fun _ => .bind (hR.respects_expr false pointer h) fun _ =>
      .bind (hR.respects_expectAssignable _ _ h) fun _ => .pure _
  | .withResources bindings items, h => by
    obtain ⟨hbindings, hitems⟩ := List.forall_mem_append.mp h
    exact hR.respects_inScope (.bind (hR.respects_resources bindings hbindings) fun _ =>
      hR.respects_body false false items hitems)
  | .atomic items, h => hR.respects_inScope (hR.respects_body false false items h)
  | .mutex .create _, _ => .pure _
  | .mutex .lock (some handle), h | .mutex .unlock (some handle), h =>
    .bind (hR.respects_expr false handle h) fun _ => .bind (hR.respects_expectAssignable _ _ h) fun _ => .pure _
  | .mutex .lock none, _ | .mutex .unlock none, _ => .fail _ _

theorem respects_body (hR : FormFrame R own) (tail jumped : Bool) : ∀ items : List Expr,
    (∀ part ∈ preorders items, own part.id) →
    Respects R (Check.body tail jumped items)
  | [], _ => .pure _
  | e :: rest, h => by
    obtain ⟨he, hrest⟩ := List.forall_mem_append.mp h
    have hboth : Respects R (do
        let type ← Check.expr (tail && rest.isEmpty) e
        if rest.isEmpty = true then pure type else Check.body tail e.diverges rest) :=
      .bind (hR.respects_expr _ e he) fun _ => .ite (.pure _) (hR.respects_body tail e.diverges rest hrest)
    simp only [Check.body]
    exact .ite (.bind (hR.respects_warn _ _) fun _ => hboth) hboth

theorem respects_exprs (hR : FormFrame R own) : ∀ items : List Expr, (∀ part ∈ preorders items, own part.id) →
    Respects R (Check.exprs items)
  | [], _ => .pure _
  | e :: rest, h => by
    obtain ⟨he, hrest⟩ := List.forall_mem_append.mp h
    exact .bind (hR.respects_expr false e he) fun _ => .bind (hR.respects_exprs rest hrest) fun _ => .pure _

theorem respects_elements (hR : FormFrame R own) (type : Ty) : ∀ items : List Expr,
    (∀ part ∈ preorders items, own part.id) →
    Respects R (Check.elements type items)
  | [], _ => .pure _
  | e :: rest, h => by
    obtain ⟨he, hrest⟩ := List.forall_mem_append.mp h
    exact .bind (hR.respects_expr false e he) fun _ => .bind (hR.respects_expectAssignable _ _ he) fun _ =>
      hR.respects_elements type rest hrest

theorem respects_arguments (hR : FormFrame R own) (σ : Substitution) : ∀ (params : List Ty) (args : List Expr),
    (∀ part ∈ preorders args, own part.id) → Respects R (Check.arguments σ params args)
  | _ :: params, arg :: args, h => by
    obtain ⟨harg, hargs⟩ := List.forall_mem_append.mp h
    exact .bind (hR.respects_expr false arg harg) fun _ => .bind (hR.respects_argument _ _ _ harg) fun σ =>
      hR.respects_arguments σ params args hargs
  | [], [], _ => .pure _
  | [], _ :: _, _ => .pure _
  | _ :: _, [], _ => .pure _

theorem respects_resources (hR : FormFrame R own) : ∀ bindings : List (Resource Expr),
    (∀ part ∈ resourcePreorders bindings, own part.id) →
    Respects R (Check.resources bindings)
  | [], _ => .pure _
  | ⟨_, init, _⟩ :: rest, h => by
    obtain ⟨hinit, hrest⟩ := List.forall_mem_append.mp h
    exact .bind (hR.respects_expr false init hinit) fun _ => .bind (hR.respects_resource _ _ _ _) fun _ =>
      hR.respects_resources rest hrest

end

end FormFrame

/-! ## Equal states -/

/-- States are related to themselves only. -/
theorem frame_eq :
  FormFrame (· = ·) fun _ => True
  where
  nesting := by rintro s _ rfl; rfl
  peek? := by rintro s _ rfl _; rfl
  push := by rintro _ s _ rfl; rfl
  add := by rintro _ _ s _ rfl; rfl
  context := by rintro s _ rfl; rfl
  declared? := by rintro s _ rfl _; rfl
  offered? := by rintro s _ rfl _ _; rfl
  type? := by rintro s _ rfl _ _; rfl
  setContext := by rintro _ s _ rfl; rfl
  setLoopDepth := by rintro _ s _ rfl; rfl
  enter := by rintro s _ rfl; rfl
  leave := by rintro _ _ t _ _ rfl _; rfl
  markUsed := by rintro _ s _ rfl; rfl
  take := by rintro _ _ s _ rfl; rfl
  markTailRecursive := by rintro _ s _ rfl; rfl
  record := by rintro _ _ _ s _ rfl; rfl
  coerce := by rintro _ _ _ s _ rfl; exact ⟨rfl, rfl⟩

/-- A check leaves the problems as they are. -/
theorem Respects.problems_eq {x : Check α} (hx : Respects (· = ·) x) (s : CheckState) :
  (x s).2.checked.problems = s.checked.problems
  := by
  have hrun := hx (rfl : s = s)
  generalize x s = r at hrun ⊢
  cases hrun with
  | ok hstays _ => exact hstays.problems
  | error _ hproblems _ => exact hproblems

end FormCompiler
