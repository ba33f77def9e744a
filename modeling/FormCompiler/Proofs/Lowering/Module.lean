import FormCompiler.Proofs.Lowering.Expr
import FormCompiler.Proofs.Parsing.Unit
import FormCompiler.Proofs.Typing.Module

/-!
# Lowering of units

A typed function is lowered to one whose construction kept everything true, and so are the
expressions outside of functions. All functions of the program of a unit come from one of the two.

In a unit without problems each function is built with the bindings that it is lowered with. A function that is not
an instance has no bindings, so the types of its code are those that its operators need, and it passes the verifier
(`verify_of_mem_lowerModule`).
-/

namespace FormCompiler

open FormCompiler.Flow

namespace Lower

open LowerState

variable {c : LowerContext} {result type : Ty} {scope scope' : TypeScope} {passed : Passed}
  {s s' : LowerState}
variable {body items : List Expr}

/-! ## The start of a function -/

theorem built_start {typed : Prop} (name : String) (result : ValueType) (flags : Flags) :
  (Function.start name result flags).Built typed fun _ => ∅
  := by
  have hempty : ∀ id, (Function.start name result flags).block id = .empty := by
    rintro (_ | id)
    · rfl
    · rfl
  refine ⟨by simp [Function.start], rfl, rfl, by simp [Function.start, Block.empty, Block.defs, Block.instrs],
    fun id v hv => ?_, fun id => Function.builtBlock_of_empty (hempty id), by simp [Function.start]⟩
  simp [hempty, Block.empty, Block.defs, Block.instrs] at hv

/-- Control is in the entry block of a function and in its outermost scope; nothing goes back there. -/
structure AtEntry (c : LowerContext) (result : Ty) (scope : TypeScope) (s : LowerState) : Prop
    extends s.Ready c result (fun _ => ∅) scope where
  current : s.current = s.function.entry
  outside : s.loop = none
  outermost : s.frames.length = 1
  first : ∀ d, s.function.entry ∉ s.function.successors d

/-- A function of a result type, in a scope of its own, before anything has been lowered. -/
theorem atEntry_start {t : ValueType} (ht : c.valueType? result = some t) (shared : UnitState)
    (name : String) (flags : Flags) :
  AtEntry c result [] { LowerState.start shared (.start name t flags) with frames := [.empty] }
  := by
  refine ⟨⟨⟨⟨built_start name t flags, by simp [LowerState.start, Function.start], fun _ => rfl, ht, ?_⟩,
    rfl, .nil, ?_⟩, by simp⟩, rfl, rfl, rfl, fun d hd => ?_⟩
  · simp only [List.mem_singleton, forall_eq]
    exact ⟨by simp [Frame.empty], by simp [Frame.empty]⟩
  · rintro id ⟨targets, htargets, -⟩
    cases htargets
  · cases d <;> cases hd

theorem AtEntry.after (h : AtEntry c result scope s)
    (h' : Reached c result scope' (fun _ => ∅) s (fun _ => ∅) s') (hopen : s'.isOpen = true)
    (hcurrent : s'.current = s.current) :
  AtEntry c result scope' s'
  := by
  have hgrown := h'.grown
  refine ⟨h.toReady.after h' hopen, ?_, hgrown.loop.trans h.outside,
    hgrown.depth.trans h.outermost, fun d hd => ?_⟩
  · rw [hcurrent, hgrown.entry, h.current]
  · rw [hgrown.entry] at hd
    have hentry := h.sound.built.entry
    by_cases hd' : s.Writes d ∨ s.function.blocks.length ≤ d
    · rcases hgrown.targets d hd' _ hd with hnew | ⟨targets, htargets, -⟩
      · exact absurd hentry (Nat.not_lt_of_le hnew)
      · rw [h.outside] at htargets
        cases htargets
    · obtain ⟨hidle, hold⟩ := not_or.mp hd'
      rw [Function.successors, hgrown.others d (Nat.lt_of_not_le hold) hidle] at hd
      exact h.first d hd

/-- A parameter of the function is one of its entry block. -/
theorem ensures_entryParam (h : AtEntry c result scope s) (t : ValueType) :
  Ensures c s (do
      let v ← blockParam s.function.entry t
      modifyFunction fun f => { f with params := f.params ++ [v] }
      return v)
    fun v s' => AtEntry c result scope s' ∧ s'.function.varTypes[v]? = some t
      ∧ s'.function.DefinesIn (s'.here fun _ => ∅) v
  := by
  rintro _ _ ⟨⟩
  set f₁ := (s.function.freshVar t).2 with hf₁
  have hwidens₁ : s.function.Widens f₁ :=
    ⟨rfl, List.prefix_append _ _, List.prefix_refl _, le_rfl, fun _ _ hv => hv, fun _ _ hi => hi⟩
  have hv : f₁.varTypes[s.function.varTypes.length]? = some t := List.getElem?_concat_length
  have hentry : f₁.entry < f₁.blocks.length := h.sound.built.entry
  set g : Function :=
    { f₁.modifyBlock f₁.entry fun b => { b with params := b.params ++ [s.function.varTypes.length] } with
      params := f₁.params ++ [s.function.varTypes.length] } with hg
  obtain ⟨hbuilt, hwidens₂⟩ : g.Built c.bindings.BindsIntegers (fun _ => ∅) ∧ f₁.Widens g :=
    (h.sound.built.addVar t).addParam hentry
      ⟨(List.getElem?_eq_some_iff.mp hv).1, fun d hd => lt_irrefl _ (h.sound.built.bounded d _ hd)⟩
      h.first (if_pos rfl).symm
  have hblock : ∀ d, g.block d = if d = f₁.entry then
      { f₁.block d with params := (f₁.block d).params ++ [s.function.varTypes.length] } else f₁.block d :=
    Function.block_modifyBlock hentry _
  have hterminator : ∀ d, (g.block d).terminator = (s.function.block d).terminator := by
    intro d
    rw [hblock]
    split <;> rfl
  have hwidens := hwidens₁.trans hwidens₂
  suffices hnext : AtEntry c result scope { s with function := g }
      ∧ g.varTypes[s.function.varTypes.length]? = some t
      ∧ g.DefinesIn ({ s with function := g }.here fun _ => ∅) s.function.varTypes.length by
    exact hnext
  refine ⟨⟨⟨⟨⟨hbuilt, h.sound.current.trans_le hwidens.length, fun hopen => ?_, h.sound.result, ?_⟩,
    h.isOpen, h.binds.mono hwidens.slots rfl, ?_⟩, h.inside⟩, h.current, h.outside, h.outermost, fun d hd => ?_⟩,
    hwidens₂.getElem?_varTypes hv, s.current, Set.mem_insert _ _, List.mem_append_left _ ?_⟩
  · exact (hterminator s.current).trans (h.sound.unfinished hopen)
  · exact fun frame hframe => (h.sound.frames frame hframe).mono hwidens
  · rintro id ⟨targets, htargets, -⟩
    cases h.outside.symm.trans htargets
  · refine h.first d ?_
    rwa [Function.successors, hterminator] at hd
  · rw [hblock, if_pos (show s.current = f₁.entry from h.current)]
    exact List.mem_append_right _ (List.mem_singleton_self _)

/-- The parameters of a function are in scope in its body. -/
theorem ensures_params (span : Span) (params : List (String × Ty)) (h : AtEntry c result scope s) :
  Ensures c s (Lower.params span params) fun _ s' =>
    AtEntry c result (.ofParams params ++ scope) s'
  := by
  induction params generalizing scope s with
  | nil => exact .pure h
  | cons param rest ih =>
    obtain ⟨name, type⟩ := param
    refine .bind_concrete fun t ht => ?_
    -- the function has the parameter as soon as its entry block has
    suffices hparam : Ensures c s (do
        let v ← (do
          let v ← blockParam s.function.entry t
          modifyFunction fun f => { f with params := f.params ++ [v] }
          return v)
        let slot ← freshSlot (some name) t
        emit (.store slot v) none
        bindName name slot
        Lower.params span rest) fun _ s' => 
          AtEntry c result (.ofParams ((name, type) :: rest) ++ scope) s' by
      exact hparam
    refine (ensures_entryParam h t).bind fun v s₁ ⟨h₁, hv, hdefined⟩ => ?_
    refine (ensures_freshSlot h₁.toLive (some name) t).bind fun slot s₂ ⟨h₂, x, hx, hxt⟩ => ?_
    have hwidens := h₂.grown.widens
    refine (ensures_store (h₁.toLive.straight h₂) hx (hxt ▸ hwidens.getElem?_varTypes hv)
      (hwidens.definesIn (h₂.here h₂.isOpen) hdefined) none).bind fun _ s₃ h₃ => ?_
    have hx₃ := h₃.grown.widens.getElem?_slots hx
    have h₃ := h₂.trans h₃
    have hentry₃ := h₁.after h₃.toReached h₃.isOpen h₃.current
    refine (ensures_bindName hentry₃.toReady hx₃ ⟨type, true⟩
      (ht.trans (congrArg some hxt.symm)) name).bind fun _ s₄ ⟨h₄, hopen, hcurrent⟩ => ?_
    simpa [TypeScope.ofParams] using ih (hentry₃.after h₄ hopen hcurrent.2)

/-! ## The end of a function -/

/-- A function ends, with a value of its result type if control comes to the end. -/
theorem ensures_finish {value : Option VarId} (h : s.Sound c result passed)
    (hvalue : ∀ v, value = some v → s.function.result.isNone = false → s.isOpen = true →
      s.Holds c passed v result) :
  Ensures c s (finish value) fun _ s' =>
    s'.function.Built c.bindings.BindsIntegers passed
  := by
  refine .bind_isOpen ?_
  cases hopen : s.isOpen with
  | false => exact .pure h.built
  | true =>
    have hbuilt : ∀ {s'}, Stage c result passed s passed s' ∧ Ended s s' →
        s'.function.Built c.bindings.BindsIntegers passed := fun h' => h'.1.sound.built
    refine .bind_get ?_
    split
    · next hnone =>
      refine (ensures_terminate (.start h) hopen (by simp [Terminator.uses])
        (by simp [Terminator.successors]) (by simp) (by simp) fun _ => ?_).mono fun _ _ => hbuilt
      exact Verify.ensure_eq_ok.mpr hnone
    · next hnone =>
      cases value with
      | none =>
        exact (ensures_terminate (.start h) hopen (by simp [Terminator.uses])
          (by simp [Terminator.successors]) (by simp) (by simp) fun _ => rfl).mono fun _ _ => hbuilt
      | some v =>
        obtain ⟨⟨t, htype, hv⟩, hdefined⟩ := hvalue v rfl (by simpa using hnone) hopen
        obtain rfl : t = s.function.result := Option.some.inj (htype.symm.trans h.result)
        refine (ensures_terminate (.start h) hopen (by simpa [Terminator.uses] using hdefined)
          (by simp [Terminator.successors]) (by simp) (by simp) fun _ => ?_).mono fun _ _ => hbuilt
        exact Verify.expect_eq_ok.mpr hv

/-- A body that ends in a loop has no value. -/
theorem ensures_statements_none (hbody : body.getLast?.any Check.isLoop = true) :
  Ensures c s (statements body) fun value _ => value = none
  := by
  induction body generalizing s with
  | nil => simp at hbody
  | cons e rest ih =>
    simp only [statements]
    cases rest with
    | nil =>
      obtain ⟨id, span, shape⟩ := e
      cases shape <;> simp [Check.isLoop, Expr.shape] at hbody
      refine Ensures.bind (m := fun value _ => value = none) ?_ fun value s₁ hvalue => .bind_isOpen ?_
      · simp only [expr, form]
        refine .bind_isOpen ?_
        split
        · iterate 4 refine .bind (m := fun _ _ => True) (fun _ _ _ => trivial) fun _ _ _ => ?_
          exact .pure rfl
        · exact .pure rfl
      · split
        · exact .pure hvalue
        · exact .pure rfl
    | cons e' rest =>
      refine .bind (m := fun _ _ => True) (fun _ _ _ => trivial) fun value s₁ _ => .bind_isOpen ?_
      split
      · rw [if_neg (by simp)]
        exact ih (by simpa using hbody)
      · exact .pure rfl

/-! ## Functions -/

/-- The scope of a function: its parameters and its body. -/
theorem ensures_functionScope {sig : FunctionSig} {t : ValueType} (ht : c.valueType? result = some t)
    (hbody : BodyHasType c.checked result sig.scope body type scope') (span : Span) (shared : UnitState)
    (name : String) (flags : Flags) :
  Ensures c (.start shared (.start name t flags))
    (inScope do
      params span sig.params
      statements body)
    fun value s' => ∃ passed, s'.Sound c result passed
      ∧ (lastDiverges body = true → s'.isOpen = false)
      ∧ ∀ v, value = some v → body.getLast?.any Check.isLoop = false ∧ s'.Holds c passed v type
  := by
  refine .bind_modify ?_
  rw [bind_assoc]
  refine (ensures_params span sig.params (atEntry_start ht shared name flags)).bind fun _ s h => ?_
  rw [List.append_nil] at h
  -- nothing is bound around the scope of the function
  obtain ⟨frame, hframe⟩ := List.length_eq_one_iff.mp h.outermost
  set s₀ : LowerState := { s with frames := [] } with hs₀
  have hlive₀ : s₀.Live c result (fun _ => ∅) [] :=
    ⟨⟨h.sound.built, h.sound.current, h.sound.unfinished, h.sound.result, by simp [hs₀]⟩, h.isOpen,
      .nil, h.loop⟩
  have hs : s = { s₀ with frames := frame :: s₀.frames } := by rw [hs₀, ← hframe]
  have hloop : Ensures c s (statements body) fun value _ =>
      ∀ v, value = some v → body.getLast?.any Check.isLoop = false := by
    cases hloop : body.getLast?.any Check.isLoop with
    | false => exact fun _ _ _ _ _ => rfl
    | true =>
      refine (ensures_statements_none hloop).mono fun value _ hvalue v hv => ?_
      cases hvalue.symm.trans hv
  refine ((lowers_statements body hbody _ s h.toReady).and hloop).bind fun value s₁ ⟨h₁, hnone⟩ => ?_
  refine (ensures_closeScope (a := value) hlive₀ hs h₁).mono fun value' s₂ ⟨hvalue', h₂, _⟩ => ?_
  obtain ⟨passed, h₂, hvalue, hleaves⟩ := h₂
  rw [hvalue']
  exact ⟨passed, h₂.sound, hleaves, fun v hv => ⟨hnone v hv, (hvalue v hv).2⟩⟩

theorem lastDiverges_eq (body : List Expr) :
  lastDiverges body = body.getLast?.any (·.diverges)
  := by
  induction body with
  | nil => rfl
  | cons e rest ih =>
    cases rest with
    | nil => rfl
    | cons e' rest => rw [List.getLast?_cons_cons, ← ih, lastDiverges, if_neg (by simp)]

/-- A typed function is lowered to one that is built. -/
theorem ensures_function {sig : FunctionSig} (h : FunctionHasType c.checked sig body) (span : Span)
    (shared : UnitState) (name : String) (flags : Flags) :
  Ensures c (.start shared (.start name .none flags)) (function span sig body) fun _ s' =>
    ∃ passed, s'.function.Built c.bindings.BindsIntegers passed
  := by
  obtain ⟨result, type, scope', hresult, hbody, htype⟩ := h
  refine .bind_required fun result' hresult' => ?_
  obtain rfl : result = result' := Option.some.inj (hresult.symm.trans hresult')
  refine .bind_concrete fun t ht => .bind_modify ?_
  refine (ensures_functionScope ht hbody span shared name flags).bind fun value s ⟨passed, h, hleaves, hv⟩ => ?_
  refine (ensures_finish h fun v hvalue hsome hopen => ?_).mono fun _ s' hbuilt => ⟨passed, hbuilt⟩
  obtain ⟨hloop, hholds⟩ := hv v hvalue
  rcases htype with rfl | rfl | hjump
  · exact hholds
  · have hnone : ValueType.none = s.function.result :=
      Option.some.inj (h.result.symm.trans rfl).symm
    rw [← hnone] at hsome
    cases hsome
  · rw [lastDiverges_eq] at hleaves
    rw [endsInJump] at hjump
    cases hlast : body.getLast? with
    | none => simp [hlast] at hjump
    | some e =>
      simp only [hlast, Option.any_some, Bool.or_eq_true] at hjump hleaves hloop
      rcases hjump with hjump | hjump
      · simp [hleaves hjump] at hopen
      · simp [hloop] at hjump

/-! ## Expressions outside of functions -/

/-- Typed expressions one after the other, whose values are dropped. -/
theorem ensures_topLevel {types : List Ty} (h : s.Ready c result passed scope)
    (hitems : HaveTypes c.checked result scope items types scope') :
  Ensures c s (topLevel items) fun _ s' =>
    ∃ scope', Gives c result scope' .none false passed s none s'
  := by
  induction items generalizing scope types passed s with
  | nil => exact .pure ⟨scope, passed, Live.reached h.toLive, by simp, by simp⟩
  | cons e rest ih =>
    simp only [HaveTypes] at hitems
    obtain ⟨t, types', middle, rfl, he, hrest⟩ := hitems
    refine .bind_isOpen ?_
    rw [if_pos h.isOpen]
    refine Ensures.bind (m := fun _ s₁ => ∃ passed₁, Reached c result middle passed s passed₁ s₁) ?_ ?_
    · exact ((lowers_expr _ e he passed s h).mono fun _ s₁ ⟨passed₁, h₁, _⟩ => ⟨passed₁, h₁⟩).discard
    · rintro _ s₁ ⟨passed₁, h₁⟩
      cases hopen : s₁.isOpen with
      | true =>
        refine (ih (h.after h₁ hopen) hrest).mono fun _ s₂ ⟨inner, passed₂, h₂, _⟩ => ?_
        exact ⟨inner, passed₂, h₁.trans hopen h₂, by simp, by simp⟩
      | false =>
        have hlost : Ensures c s₁ (topLevel rest) fun _ s₂ => s₂ = s₁ := by
          cases rest with
          | nil => exact .pure rfl
          | cons e' rest =>
            refine .bind_isOpen ?_
            rw [if_neg (by simp [hopen])]
            exact .pure rfl
        refine hlost.mono fun _ s₂ heq => ⟨middle, ?_⟩
        rw [heq]
        exact .lost h₁ hopen

/-- The expressions outside of functions are lowered to a function that is built. -/
theorem ensures_topLevelFunction {types : List Ty} (hitems : HaveTypes c.checked .none [] items types scope')
    (shared : UnitState) (name : String) (flags : Flags) :
  Ensures c (.start shared (.start name .none flags)) (do
      inScope (topLevel items)
      finish none)
    fun _ s' => ∃ passed, s'.function.Built c.bindings.BindsIntegers passed
  := by
  set s₀ : LowerState := .start shared (.start name .none flags) with hs₀
  have hentry : AtEntry c .none [] { s₀ with frames := [.empty] } := atEntry_start rfl shared name flags
  have hlive : s₀.Live c .none (fun _ => ∅) [] :=
    ⟨⟨hentry.sound.built, hentry.sound.current, hentry.sound.unfinished, rfl, by simp [hs₀, LowerState.start]⟩,
      rfl, .nil, hentry.loop⟩
  refine (ensures_inScope (v := fun _ : Unit => none) hlive fun s₁ h₁ _ => ensures_topLevel h₁ hitems).bind
    fun _ s₁ ⟨⟨passed, h₁, _⟩, _⟩ => ?_
  exact (ensures_finish h₁.sound (by simp)).mono fun _ s₂ h₂ => ⟨passed, h₂⟩

end Lower

/-! ## Programs -/

section

variable {m : Module} {checked : CheckedModule} {p : Function → Prop} {unit : UnitLowering}

theorem UnitLowering.forall_mem_add (hunit : ∀ f ∈ unit.functions, p f) {context : LowerContext}
    {initial : Function} {action : Lower Unit}
    (haction : Lower.Ensures context (.start unit.shared initial) action fun _ s' => p s'.function)
    (span : Span) :
  ∀ f ∈ (unit.add context span initial action).functions, p f
  := by
  unfold add
  split
  · next a state hrun =>
    simp only [List.mem_append, List.mem_singleton]
    rintro f (hf | rfl)
    · exact hunit f hf
    · exact haction a state hrun
  · exact hunit

/-- All instances of definitions satisfy a condition. -/
theorem UnitLowering.forall_mem_addInstances {generics : List (FunctionSig × Definition)}
    (hgenerics : ∀ d ∈ generics, ∀ shared name bindings flags,
      Lower.Ensures ⟨checked, bindings⟩ (.start shared (.start name .none flags))
        (Lower.function d.2.span d.1 d.2.body) fun _ s' => p s'.function)
    (limit : Nat) (hunit : ∀ f ∈ unit.functions, p f) :
  ∀ f ∈ (unit.addInstances checked generics limit).functions, p f
  := by
  induction limit generalizing unit with
  | zero => exact hunit
  | succ limit ih =>
    unfold addInstances
    split
    · exact hunit
    · dsimp only
      split
      · exact ih hunit
      · next sig source hfind =>
        refine ih (forall_mem_add ?_ (hgenerics _ (List.mem_of_find?_eq_some hfind) _ _ _ _) _)
        exact hunit

/-- All functions of a program come from a definition or from the expressions outside of functions. -/
theorem forall_mem_lowerModule
    (hplain : ∀ d ∈ signedDefinitions m checked, d.1.isGeneric = false → ∀ shared name flags,
      Lower.Ensures ⟨checked, .empty⟩ (.start shared (.start name .none flags))
        (Lower.function d.2.span d.1 d.2.body) fun _ s' => p s'.function)
    (hgeneric : ∀ d ∈ signedDefinitions m checked, d.1.isGeneric = true →
      ∀ shared name bindings flags, Lower.Ensures ⟨checked, bindings⟩
        (.start shared (.start name .none flags)) (Lower.function d.2.span d.1 d.2.body)
        fun _ s' => p s'.function)
    (htopLevel : ∀ shared name flags, Lower.Ensures ⟨checked, .empty⟩
      (.start shared (.start name .none flags)) (do
        Lower.inScope (Lower.topLevel (m.flatItems.filterMap Item.expr?))
        Lower.finish none) fun _ s' => p s'.function) :
  ∀ f ∈ (lowerModule m checked).program.functions, p f
  := by
  simp only [lowerModule]
  refine UnitLowering.forall_mem_addInstances (fun d hd => ?_) _ ?_
  · obtain ⟨hd, hd'⟩ := List.mem_filter.mp hd
    exact hgeneric d hd hd'
  · have hdefinitions : ∀ (definitions : List (FunctionSig × Definition)) (unit : UnitLowering),
        (∀ d ∈ definitions, d ∈ signedDefinitions m checked ∧ d.1.isGeneric = false) →
        (∀ f ∈ unit.functions, p f) →
        ∀ f ∈ (definitions.foldl (fun unit d =>
          unit.addDefinition checked d.1 d.2 d.2.name .empty false) unit).functions, p f := by
      intro definitions
      induction definitions with
      | nil => exact fun unit _ hunit => hunit
      | cons d definitions ih =>
        intro unit hall hunit
        obtain ⟨⟨hd, hd'⟩, hall⟩ := List.forall_mem_cons.mp hall
        exact ih _ hall (UnitLowering.forall_mem_add hunit (hplain d hd hd' _ _ _) _)
    have hall := hdefinitions ((signedDefinitions m checked).filter fun d => !d.1.isGeneric)
      ⟨.initial, [], (lowerGlobals checked).2⟩ (fun d hd => by simpa using List.mem_filter.mp hd) (by simp)
    unfold UnitLowering.addTopLevel
    split
    · exact hall
    · next first rest heq =>
      rw [heq] at htopLevel
      exact UnitLowering.forall_mem_add hall (htopLevel _ _ _) _

end

/-! ## Units without problems -/

/-- Typed functions are built when they are lowered, and so are typed expressions outside of functions. -/
theorem built_of_mem_lowerModule {m : Module} {checked : CheckedModule} {p : Function → Prop}
    (hfunctions : ∀ d ∈ signedDefinitions m checked, FunctionHasType checked d.1 d.2.body)
    (htopLevel : ∃ types scope, HaveTypes checked .none [] (m.flatItems.filterMap Item.expr?) types scope)
    (hplain : ∀ f passed, f.Built Substitution.empty.BindsIntegers passed → p f)
    (hgeneric : ∀ d ∈ signedDefinitions m checked, d.1.isGeneric = true →
      ∀ bindings : Substitution, ∀ f passed, f.Built bindings.BindsIntegers passed → p f) :
  ∀ f ∈ (lowerModule m checked).program.functions, p f
  := by
  refine forall_mem_lowerModule (fun d hd _ shared name flags => ?_)
    (fun d hd hgen shared name bindings flags => ?_) fun shared name flags => ?_
  · intro a s' hrun
    obtain ⟨passed, hbuilt⟩ := Lower.ensures_function (hfunctions d hd) _ shared name flags a s' hrun
    exact hplain s'.function passed hbuilt
  · intro a s' hrun
    obtain ⟨passed, hbuilt⟩ := Lower.ensures_function (hfunctions d hd) _ shared name flags a s' hrun
    exact hgeneric d hd hgen bindings s'.function passed hbuilt
  · intro a s' hrun
    obtain ⟨types, scope, htypes⟩ := htopLevel
    obtain ⟨passed, hbuilt⟩ := Lower.ensures_topLevelFunction htypes shared name flags a s' hrun
    exact hplain s'.function passed hbuilt

/--
If no function of a unit is generic and the unit is checked without problems, all functions of its
program are well-formed, whatever other units declare.
-/
theorem verify_of_mem_lowerModule (source : String) (imports : List FunctionSig)
    (hclean : (checkModule (parseUnit source).module imports).problems = [])
    (hplain : ∀ sig ∈ (checkModule (parseUnit source).module imports).signatures, sig.isGeneric = false) :
  ∀ f ∈ (lowerModule (parseUnit source).module
    (checkModule (parseUnit source).module imports)).program.functions, f.verify = .ok ()
  := by
  obtain ⟨hfunctions, htopLevel⟩ := typed_checkModule (numbered_parseUnit source) hclean
  refine built_of_mem_lowerModule (fun d hd => (hfunctions d hd).2) htopLevel (fun f passed hbuilt => ?_)
    fun d hd hgeneric => ?_
  · exact hbuilt.verify Substitution.bindsIntegers_empty
  · simp [hplain d.1 (hfunctions d hd).1] at hgeneric

/-- A function whose literals become narrow integers, in an array and as a result. -/
def picksNarrow : String :=
  "[func pick ((i !int)) -> !int<8>
    [const (a !array<!int<8>,3>) [array 1 2 3]]
    [if (i < 0) [return 0]]
    [index a i]]"

/-- Its program has one function, which is well-formed. -/
theorem verify_picksNarrow :
  (checkModule (parseUnit picksNarrow).module []).problems = []
    ∧ (∀ sig ∈ (checkModule (parseUnit picksNarrow).module []).signatures, sig.isGeneric = false)
    ∧ (lowerModule (parseUnit picksNarrow).module
      (checkModule (parseUnit picksNarrow).module [])).program.functions.map (·.name) = ["pick"]
    ∧ ∀ f ∈ (lowerModule (parseUnit picksNarrow).module
      (checkModule (parseUnit picksNarrow).module [])).program.functions, f.verify = .ok ()
  := by
  have hpicks : (checkModule (parseUnit picksNarrow).module []).problems = []
      ∧ (∀ sig ∈ (checkModule (parseUnit picksNarrow).module []).signatures, sig.isGeneric = false)
      ∧ (lowerModule (parseUnit picksNarrow).module
        (checkModule (parseUnit picksNarrow).module [])).program.functions.map (·.name) = ["pick"] := by
    decide +kernel
  obtain ⟨hclean, hplain, hnames⟩ := hpicks
  exact ⟨hclean, hplain, hnames, verify_of_mem_lowerModule picksNarrow [] hclean hplain⟩

end FormCompiler
