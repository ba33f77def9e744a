import FormCompiler.Proofs.Typing.Respects

/-!
# Rounds of the checker in related states

A round of the checker goes through the items of a unit. If a relation of states is a `FormFrame` for checks of
forms and also lets signatures and constants be declared and problems be added (`UnitFrame`), then the
rounds lead from related states to related states, as long as the items have expressions of their own.
-/

namespace FormCompiler

open CheckState

variable {check : Check Unit}

/-- The state after a problem: the scopes inside a depth are left. -/
def CheckState.giveUp (s : CheckState) (depth : Nat) (problem : TypeProblem) : CheckState :=
  { s with
    symbols := s.symbols.truncate depth
    context := none
    loopDepth := 0
    checked := { s.checked with problems := s.checked.problems ++ [problem] } }

/-- The state in which a function has a result type. -/
def CheckState.setResult (s : CheckState) (sig : FunctionSig) (result : Ty) : CheckState :=
  (s.bind (·.setGlobalType sig.name (.function sig.paramTypes result))).learn fun c =>
    { c with
      signatures := c.signatures.map fun other =>
        if other.name = sig.name then { other with result := some result } else other }

/-- States stay related if a problem is found in both of them. -/
def GivesUp (R : CheckState → CheckState → Prop) : Prop :=
  ∀ ⦃s s'⦄, R s s' → ∀ depth ≤ s.symbols.depth, ∀ problem, R (s.giveUp depth problem) (s'.giveUp depth problem)

/-- A relation that rounds of the checker keep; `declares` holds of the signatures that are declared. -/
structure UnitFrame (R : CheckState → CheckState → Prop) (own : Nat → Prop) (declares : FunctionSig → Prop) : Prop
    extends FormFrame R own where
  globals : ∀ ⦃s s'⦄, R s s' → s'.checked.globals = s.checked.globals
  addGlobal : ∀ g, Preserves R (·.learn fun c => { c with globals := c.globals ++ [g] })
  addSignature : ∀ sig, declares sig → Preserves R (·.learn fun c => { c with signatures := c.signatures ++ [sig] })
  setResult : ∀ sig result, Preserves R (·.setResult sig result)
  giveUp : GivesUp R

/-- All signatures that an item may declare satisfy a condition. -/
def Item.Declares (p : FunctionSig → Prop) : Item → Prop
  | .function decl => ∀ sig, FunctionSig.ofDecl .function decl.name decl.params decl.result decl.span = .ok sig → p sig
  | .operator decl => ∀ sig, FunctionSig.ofDecl .operator decl.symbol decl.params decl.result decl.span = .ok sig → p sig
  | .foreign decl => ∀ f ∈ decl.functions, ∀ sig,
    FunctionSig.ofDecl (.foreign decl.library) f.name f.params f.result f.span = .ok sig → p sig
  | .group .. | .const _ | .expr _ => True

theorem Item.declares_true (item : Item) :
  item.Declares fun _ => True
  := by cases item <;> simp [Declares]

variable {R : CheckState → CheckState → Prop} {own : Nat → Prop} {declares : FunctionSig → Prop}

theorem Preserves.foldl {ι : Type} {step : CheckState → ι → CheckState} {items : List ι}
    (h : ∀ item ∈ items, Preserves R (step · item)) :
  Preserves R fun s => items.foldl step s
  := by
  induction items with
  | nil => exact fun _ _ hs => hs
  | cons item items ih =>
    rw [List.forall_mem_cons] at h
    exact fun _ _ hs => ih h.2 (h.1 hs)

/-! ## Declarations -/

theorem CheckState.attempt_ok {s t : CheckState} (depth : Nat) (h : check s = (.ok (), t)) :
  s.attempt depth check = t
  := by
  have hrun : check.run.run s = (.ok (), t) := h
  rw [attempt, hrun]

theorem CheckState.attempt_error {s t : CheckState} {e : TypeProblem} (depth : Nat) (h : check s = (.error e, t)) :
  s.attempt depth check = t.giveUp depth e
  := by
  have hrun : check.run.run s = (.error e, t) := h
  rw [attempt, hrun]
  rfl

/-- A check of a form outside of loops, after which no loops are open and as many scopes as before. -/
theorem Respects.attempt (hcheck : Respects R check) (hgiveUp : GivesUp R) {s s' : CheckState} (h : R s s')
    {depth : Nat} (hnesting : s.nesting = (depth, 0)) :
  R (s.attempt depth check) (s'.attempt depth check) ∧ (s.attempt depth check).nesting = (depth, 0)
    ∧ (s.context = none → (s.attempt depth check).context = none)
  := by
  have hrun := hcheck h
  generalize hr : check s = r, hr' : check s' = r' at hrun
  cases hrun with
  | @ok a t t' hstays ht =>
    rw [CheckState.attempt_ok depth hr, CheckState.attempt_ok depth hr']
    refine ⟨ht, hstays.nesting.trans hnesting, fun hnone => ?_⟩
    have hsome := hstays.context
    rw [hnone] at hsome
    exact Option.not_isSome_iff_eq_none.mp (by simp [hsome])
  | @error e t t' hdepth hproblems ht =>
    rw [CheckState.attempt_error depth hr, CheckState.attempt_error depth hr']
    have hopen : depth ≤ t.symbols.depth := (Prod.mk.inj hnesting).1 ▸ hdepth
    exact ⟨hgiveUp ht depth hopen e, Prod.ext ((t.symbols.depth_truncate depth).trans (Nat.min_eq_left hopen)) rfl, fun _ => rfl⟩

/-- Related states between the checks of two items, where only the outermost scope is open. -/
structure BetweenItems (R : CheckState → CheckState → Prop) (s s' : CheckState) : Prop where
  related : R s s'
  nesting : s.nesting = (0, 0)
  context : s.context = none

theorem Respects.outside (hcheck : Respects R check) (hgiveUp : GivesUp R) :
  Preserves (BetweenItems R) (·.attempt 0 check)
  := by
  intro s s' h
  obtain ⟨hrelated, hnesting, hcontext⟩ := hcheck.attempt hgiveUp h.related h.nesting
  exact ⟨hrelated, hnesting, hcontext h.context⟩

namespace DeclareFrame

variable (hR : DeclareFrame R)
  (haddSignature : ∀ sig, declares sig → Preserves R (·.learn fun c => { c with signatures := c.signatures ++ [sig] }))

include hR haddSignature

theorem respects_signature {kind : FunctionKind} {name : String} {params : List Param} {result : Option Ty}
    {span : Span} (h : ∀ sig, FunctionSig.ofDecl kind name params result span = .ok sig → declares sig) :
  Respects R (Check.signature kind name params result span)
  := by
  unfold Check.signature
  cases hsig : FunctionSig.ofDecl kind name params result span with
  | error e => exact fun _ _ hs => .fail e hs
  | ok sig =>
    change Respects R (Check.declare _ >>= fun _ => Check.learn _)
    exact .bind (hR.respects_declare _) fun _ => .learn (haddSignature sig (h sig hsig)) fun _ => rfl

theorem respects_itemSignatures {item : Item} (h : item.Declares declares) :
  Respects R (Check.itemSignatures item)
  := by
  cases item with
  | function decl | operator decl => exact hR.respects_signature haddSignature h
  | foreign decl =>
    change ∀ f ∈ decl.functions, _ at h
    change Respects R (decl.functions.forM _)
    generalize decl.functions = functions at h
    induction functions with
    | nil => exact .pure _
    | cons f functions ih =>
      rw [List.forall_mem_cons] at h
      exact .bind (hR.respects_signature haddSignature h.1) fun _ => ih h.2
  | group name items span | const decl | expr e => exact .pure _

theorem declareSignatures (hgiveUp : GivesUp R) {item : Item} (h : item.Declares declares) :
  Preserves (BetweenItems R) (·.declareSignatures item)
  := (hR.respects_itemSignatures haddSignature h).outside hgiveUp

end DeclareFrame

/-! ## Checks of items -/

namespace FormFrame

variable (hR : FormFrame R own)

include hR

theorem respects_parameters (params : List ((String × Ty) × Param)) :
  Respects R (Check.parameters params)
  := by
  induction params with
  | nil => exact .pure _
  | cons param rest ih => exact .bind (hR.respects_declare _) fun _ => ih

/-- The body of a function, which may settle its result type. -/
theorem respects_function {sig : FunctionSig} (params : List Param) {items : List Expr}
    (hitems : ∀ part ∈ preorders items, own part.id)
    (hinfer : sig.result = none → ∀ result, Respects R (Check.inferResult sig result)) :
  Respects R (Check.function sig params items)
  := by
  have hlast : ∀ e, items.getLast? = some e → ∀ part ∈ e.preorder, own part.id := by
    intro e he part hpart
    refine hitems part ?_
    clear hitems
    induction items with
    | nil => simp at he
    | cons first rest ih =>
      rw [preorders]
      cases rest with
      | nil =>
        obtain rfl : first = e := by simpa using he
        exact List.mem_append_left _ hpart
      | cons second rest => exact List.mem_append_right _ (ih (by simpa using he))
  refine .bind (hR.respects_parameters _) fun _ => .bind (hR.respects_body _ _ _ hitems) fun type => ?_
  dsimp only
  split
  · refine .ite (.pure _) ?_
    split
    · next e he => exact hR.respects_expectAssignable _ _ (hlast e he)
    · exact .throw _
  · next hresult =>
    refine .bindGet (fun s s' h => by rw [hR.context h]) fun s => ?_
    split
    · split
      · next e he =>
        refine .ite (hinfer hresult _) (.bind (hR.respects_expectAssignable _ _ (hlast e he)) fun _ => ?_)
        exact hinfer hresult _
      · exact hinfer hresult _
    · exact hinfer hresult _

end FormFrame

namespace UnitFrame

variable (hR : UnitFrame R own declares)

include hR

variable {item : Item}

theorem respects_constant {decl : ConstDecl} (hinit : ∀ part ∈ decl.init.preorder, own part.id) :
  Respects R (Check.constant decl)
  := by
  refine .bind (hR.respects_expr false decl.init hinit) fun found => ?_
  dsimp only
  split
  on_goal 1 =>
    refine .bind (hR.respects_annotated _ _) fun _ => .bind (hR.respects_expectAssignable _ _ hinit) fun _ => ?_
  -- with a type that is written down or without one
  all_goals
    rw [pure_bind]
    refine .bindGet (fun s s' h => by simp only [CheckedModule.global?, hR.globals h]) fun s => ?_
    split
    · exact .fail _ _
    · exact .bind (hR.respects_declare _) fun _ => Respects.learn (hR.addGlobal _) fun _ => rfl

theorem respects_inferResult (sig : FunctionSig) (result : Ty) :
  Respects R (Check.inferResult sig result)
  := fun s _ h => .ok ⟨Prod.ext (s.symbols.depth_setGlobalType _ _) rfl, rfl, rfl⟩ (hR.setResult sig result h)

/-! ## Rounds -/

theorem declareConstant (h : ∀ part ∈ preorders item.roots, own part.id) :
  Preserves (BetweenItems R) (·.declareConstant item)
  := by
  cases item with
  | const decl =>
    have hinit : ∀ part ∈ decl.init.preorder, own part.id :=
      fun part hpart => h part (List.mem_append_left _ hpart)
    exact (hR.respects_constant hinit).outside hR.giveUp
  | _ => exact fun _ _ hs => hs

theorem checkFunction (name : String) (params : List Param) {body : List Expr} (span : Span)
    (h : ∀ part ∈ preorders body, own part.id) :
  Preserves (BetweenItems R) (·.checkFunction name params body span)
  := by
  intro s s' hs
  have hdeclared := hR.declared? hs.related name
  unfold CheckState.checkFunction
  dsimp only
  cases hsig : s.checked.declared? name with
  | none =>
    rw [hsig, Option.map_none, Option.map_eq_none_iff] at hdeclared
    rw [hdeclared]
    exact hs
  | some sig =>
    rw [hsig, Option.map_some, Option.map_eq_some_iff] at hdeclared
    obtain ⟨sig', hsig', hplain⟩ := hdeclared
    rw [hsig']
    -- what is done with a signature does not depend on the calls of the function that have been found
    let step (s : CheckState) (sig : FunctionSig) : CheckState :=
      if sig.span = span then
        { { s with context := some ⟨name, sig.result, none, sig.typeVars⟩, loopDepth := 0 }.attempt s.symbols.depth
            (Check.inScope (Check.function sig params body)) with
          context := none }
      else s
    have hstep : step s' sig' = step s' sig := by
      change step s' sig'.plain = step s' sig.plain
      rw [hplain]
    change BetweenItems R (step s sig) (step s' sig')
    rw [hstep]
    dsimp only [step]
    split
    · have hcheck := hR.respects_inScope (hR.respects_function params h fun _ => hR.respects_inferResult sig)
      have hdepth : s.symbols.depth = 0 := congrArg Prod.fst hs.nesting
      have hdepth' : s'.symbols.depth = 0 := congrArg Prod.fst ((hR.nesting hs.related).trans hs.nesting)
      rw [hdepth, hdepth']
      obtain ⟨hrelated, hnesting, -⟩ := hcheck.attempt hR.giveUp
        (hR.setLoopDepth (fun _ => 0) (hR.setContext (fun _ => some ⟨name, sig.result, none, sig.typeVars⟩) hs.related))
        (show CheckState.nesting _ = (0, 0) from Prod.ext hdepth rfl)
      exact ⟨hR.setContext (fun _ => none) hrelated, hnesting, rfl⟩
    · exact hs

theorem checkBody (h : ∀ part ∈ preorders item.roots, own part.id) :
  Preserves (BetweenItems R) (·.checkBody item)
  := by
  cases item with
  | function decl | operator decl => exact hR.checkFunction _ _ _ h
  | _ => exact fun _ _ hs => hs

theorem checkTopLevel (h : ∀ part ∈ preorders item.roots, own part.id) {depth : Nat} {s s' : CheckState} (hs : R s s')
    (hdepth : s.symbols.depth = depth) :
  R (s.checkTopLevel depth item) (s'.checkTopLevel depth item) ∧ (s.checkTopLevel depth item).symbols.depth = depth
  := by
  cases item with
  | expr e =>
    have he : ∀ part ∈ e.preorder, own part.id := fun part hpart => h part (List.mem_append_left _ hpart)
    obtain ⟨hrelated, hnesting, -⟩ := (hR.respects_expr false e he).discard.attempt hR.giveUp
      (hR.setLoopDepth (fun _ => 0) hs) (show CheckState.nesting _ = (depth, 0) from Prod.ext hdepth rfl)
    exact ⟨hrelated, congrArg Prod.fst hnesting⟩
  | _ => exact ⟨hs, hdepth⟩

end UnitFrame

theorem unitFrame_eq :
  UnitFrame (· = ·) (fun _ => True) fun _ => True
  := { frame_eq with
    globals := by rintro s _ rfl; rfl
    addGlobal := by rintro _ s _ rfl; rfl
    addSignature := by rintro _ _ s _ rfl; rfl
    setResult := by rintro _ _ s _ rfl; rfl
    giveUp := by rintro s _ rfl _ _ _; rfl }

/-! ## Units -/

/-- The state in which the body of the item at a position is checked. -/
def Module.beforeBody (m : Module) (imports : List FunctionSig) (i : Nat) : CheckState :=
  let s := m.flatItems.foldl CheckState.declareSignatures (.initial imports m.exprCount)
  (m.flatItems.take i).foldl CheckState.checkBody (m.flatItems.foldl CheckState.declareConstant s)

/-- The state after the last round, in which the expressions outside of functions share a scope. -/
def CheckState.checkTopLevels (s : CheckState) (items : List Item) : CheckState :=
  (items.foldl (checkTopLevel (s.symbols.depth + 1)) (s.bind .enter)).leave

theorem checkModule_eq (m : Module) (imports : List FunctionSig) :
  checkModule m imports
    = ((m.beforeBody imports m.flatItems.length).checkTopLevels m.flatItems).checked
  := by
  rw [Module.beforeBody, List.take_length, CheckState.checkTopLevels, ← SymbolTable.depth_enter]
  rfl

theorem UnitFrame.checkTopLevels (hR : UnitFrame R own declares) {items : List Item}
    (h : ∀ item ∈ items, ∀ part ∈ preorders item.roots, own part.id) :
  Preserves R (·.checkTopLevels items)
  := by
  intro s s' hs
  have hdepth : s'.symbols.depth = s.symbols.depth := congrArg Prod.fst (hR.nesting hs)
  -- the shared scope stays open whatever problems are found
  have hitems : ∀ t t' : CheckState, R t t' → t.symbols.depth = s.symbols.depth + 1 →
      R (items.foldl (CheckState.checkTopLevel (s.symbols.depth + 1)) t)
          (items.foldl (CheckState.checkTopLevel (s.symbols.depth + 1)) t')
        ∧ (items.foldl (CheckState.checkTopLevel (s.symbols.depth + 1)) t).symbols.depth = s.symbols.depth + 1 := by
    induction items with
    | nil => exact fun _ _ ht hopen => ⟨ht, hopen⟩
    | cons item items ih =>
      rw [List.forall_mem_cons] at h
      intro t t' ht hopen
      obtain ⟨hnext, hopen⟩ := hR.checkTopLevel h.1 ht hopen
      exact ih h.2 _ _ hnext hopen
  obtain ⟨hlast, hopen⟩ := hitems _ _ (hR.enter hs) s.symbols.depth_enter
  unfold CheckState.checkTopLevels
  dsimp only
  rw [hdepth]
  exact hR.leave hs hlast hopen

end FormCompiler
