import FormCompiler.Proofs.Action.Ensures
import FormCompiler.Proofs.Scope.Bindings
import FormCompiler.Proofs.Ty.Matching
import FormCompiler.Proofs.Typing.Coerce

/-!
# What checking keeps true

Between two checks the symbol table is `Sound`: the locals lie above the globals, so that the visible
binding of a local's name is the local. What a check does to the state is `Grown`: it declares locals in
the innermost scope, gives types to its own expressions only, and may settle the result type of the
function around it, but never changes it. A check leaves the problems found before as they are; only
`CheckState.attempt` adds to them.
-/

namespace FormCompiler

open ExprTypes

/-! ## Symbol tables -/

/-- A binding without the mark that it has been read. -/
def Symbol.unread (s : Symbol) : Symbol := { s with isUsed := false }

namespace SymbolTable

variable {s : Symbol}

/-- The bindings, whether they have been read or not. -/
def bindings (table : SymbolTable) : List Symbol := table.symbols.map Symbol.unread

/-- The locals among bindings. -/
def localsOf (bindings : List Symbol) : TypeScope :=
  (bindings.filter fun s => s.storage = .stack).map fun s => (s.name, ⟨s.type, s.isMutable⟩)

/-- The locals in scope, the latest first. -/
def locals (table : SymbolTable) : TypeScope := localsOf table.bindings

/-- What holds between two checks. -/
structure Sound (table : SymbolTable) : Prop where
  layered : table.bindings.Pairwise fun s t => t.storage = .stack → s.storage = .stack
  isMutable : ∀ s ∈ table.bindings, s.isMutable = true → s.storage = .stack

/-- Locals have been declared in the innermost scope. -/
structure Extends (table table' : SymbolTable) : Prop where
  depth : table'.depth = table.depth
  bindings : ∃ new, table'.bindings = new ++ table.bindings
    ∧ ∀ s ∈ new, s.depth = table.depth ∧ s.storage = .stack

variable {table table' table'' : SymbolTable} {name : String}

theorem Extends.of_eq (hdepth : table'.depth = table.depth)
    (hbindings : table'.bindings = table.bindings) :
  table.Extends table'
  := ⟨hdepth, [], hbindings, by simp⟩

theorem Extends.refl (table : SymbolTable) :
  table.Extends table
  := .of_eq rfl rfl

theorem Extends.trans (h : table.Extends table') (h' : table'.Extends table'') :
  table.Extends table''
  := by
  obtain ⟨new, hnew, hall⟩ := h.bindings
  obtain ⟨new', hnew', hall'⟩ := h'.bindings
  refine ⟨h'.depth.trans h.depth, new' ++ new, ?_, ?_⟩
  · rw [hnew', hnew, List.append_assoc]
  · rw [h.depth] at hall'
    exact List.forall_mem_append.mpr ⟨hall', hall⟩

theorem Extends.sound (h : table.Extends table') (hsound : table.Sound) :
  table'.Sound
  := by
  obtain ⟨new, hnew, hall⟩ := h.bindings
  refine ⟨?_, ?_⟩
  · rw [hnew, List.pairwise_append]
    refine ⟨?_, hsound.layered, fun s hs t _ _ => (hall s hs).2⟩
    exact List.pairwise_of_forall_mem_list fun s hs t _ _ => (hall s hs).2
  · rw [hnew]
    exact List.forall_mem_append.mpr ⟨fun s hs _ => (hall s hs).2, hsound.isMutable⟩

/-- The visible binding of a name is a local's, or no local has the name. -/
theorem lookup_localsOf {bindings : List Symbol}
    (hlayered : bindings.Pairwise fun s t => t.storage = .stack → s.storage = .stack)
    (h : bindings.find? (·.name == name) = some s) :
  (localsOf bindings).lookup name = if s.storage = .stack then some ⟨s.type, s.isMutable⟩ else none
  := by
  induction bindings with
  | nil => simp at h
  | cons t bindings ih =>
    rw [List.pairwise_cons] at hlayered
    rw [List.find?_cons] at h
    split at h
    · next hname =>
      obtain rfl := Option.some.inj h
      have hname : name = t.name := (beq_iff_eq.mp hname).symm
      by_cases hstack : t.storage = .stack
      · simp [localsOf, hstack, hname]
      · have hnone : bindings.filter (fun s => s.storage = .stack) = [] := by
          simpa [List.filter_eq_nil_iff] using fun s hs hs' => hstack (hlayered.1 s hs hs')
        simp [localsOf, hstack, hnone]
    · next hname =>
      have hname : (name == t.name) = false := by
        simpa [BEq.comm] using hname
      rw [← ih hlayered.2 h]
      by_cases hstack : t.storage = .stack
      · simp [localsOf, hstack, List.lookup_cons, hname]
      · simp [localsOf, hstack]

theorem find?_bindings (h : table.peek? name = some s) :
  table.bindings.find? (·.name == name) = some s.unread
  := by
  rw [table.peek?_eq] at h
  rw [bindings, List.find?_map]
  exact congrArg (Option.map Symbol.unread) h

theorem Sound.lookup_locals (hsound : table.Sound) (h : table.peek? name = some s) :
  table.locals.lookup name = if s.storage = .stack then some ⟨s.type, s.isMutable⟩ else none
  := (lookup_localsOf hsound.layered (find?_bindings h) :)

theorem bindings_markUsed (table : SymbolTable) (name : String) :
  (table.markUsed name).bindings = table.bindings
  := by
  rw [bindings, symbols_markUsed, map_modifyFirst (f := SymbolChange.markUsed.apply) fun _ => rfl]
  rfl

/-- A name that is read. -/
theorem of_lookup (h : table.lookup name = .ok (s, table')) :
  table'.depth = table.depth ∧ table'.bindings = table.bindings
    ∧ ∃ bound, table.peek? name = some bound ∧ bound.type = s.type ∧ bound.storage = s.storage
  := by
  rw [lookup_eq] at h
  split at h
  · next bound hbound =>
    obtain ⟨rfl, rfl⟩ := Prod.mk.inj (Except.ok.inj h)
    exact ⟨table.depth_markUsed name, table.bindings_markUsed name, bound, hbound, rfl, rfl⟩
  · cases h

theorem not_mem_of_lookup_error {e : SymbolError} (h : table.lookup name = .error e) :
  ∀ b ∈ table.bindings, b.name ≠ name
  := by
  rw [lookup_eq] at h
  split at h
  · cases h
  · next hnone =>
    rw [bindings, List.forall_mem_map]
    simpa [peek?_eq, List.find?_eq_none, Symbol.unread] using hnone

/-- A name that is assigned to is that of a local. -/
theorem of_assignTarget (hsound : table.Sound) (h : table.assignTarget name = .ok s) :
  table.locals.lookup name = some ⟨s.type, true⟩
  := by
  unfold assignTarget at h
  split at h
  · next bound hbound =>
    split at h
    · next hmutable =>
      obtain rfl := Except.ok.inj h
      have hmem := List.mem_of_find?_eq_some (find?_bindings hbound)
      have hstack : bound.storage = .stack := hsound.isMutable bound.unread hmem hmutable
      rw [hsound.lookup_locals hbound, if_pos hstack, hmutable]
    · cases h
  · cases h

/-- A name that is declared. -/
theorem of_declare {hidden : Option Span} (h : table.declare s = .ok (hidden, table')) :
  table'.depth = table.depth
    ∧ table'.bindings = { s with depth := table.depth, isUsed := false } :: table.bindings
  := by
  have hpush : table' = table.push s := by
    rw [declare_eq] at h
    split at h
    · exact (Prod.mk.inj (Except.ok.inj h)).2.symm
    · split at h
      · cases h
      · exact (Prod.mk.inj (Except.ok.inj h)).2.symm
  rw [hpush, bindings, symbols_push]
  exact ⟨table.depth_push s, rfl⟩

/-- Leaving a scope takes away what has been declared in it. -/
theorem leave_of_enter (h : table.enter.Extends table') :
  table'.leave.2.depth = table.depth ∧ table'.leave.2.bindings = table.bindings
  := by
  obtain ⟨new, hnew, hall⟩ := h.bindings
  have hdepth : table'.depth = table.depth + 1 := h.depth.trans table.depth_enter
  obtain ⟨-, hsymbols, hleft⟩ := table'.leave_of_depth_ne_zero (by rw [hdepth]; exact Nat.succ_ne_zero _)
  have hinnermost : table'.isInnermost = table'.isInnermost ∘ Symbol.unread := rfl
  have hmap : (table'.symbols.dropWhile table'.isInnermost).map Symbol.unread
      = table'.bindings.dropWhile table'.isInnermost := by
    rw [bindings, List.dropWhile_map, ← hinnermost]
  refine ⟨by rw [hleft, hdepth]; rfl, ?_⟩
  rw [bindings, hsymbols, hmap, hnew, List.dropWhile_append_of_pos]
  · have houter : ∀ s ∈ table.bindings, table'.isInnermost s = false := by
      intro s hs
      obtain ⟨bound, hbound, rfl⟩ := List.mem_map.mp hs
      have hle : bound.depth ≤ table.depth := table.depth_le_of_mem_symbols hbound
      change (bound.depth == table'.depth) = false
      rw [hdepth, beq_eq_false_iff_ne]
      omega
    change table.bindings.dropWhile _ = _
    cases hbindings : table.bindings with
    | nil => rfl
    | cons s rest => rw [List.dropWhile_cons, houter s (by simp [hbindings])]; rfl
  · intro s hs
    rw [isInnermost, beq_iff_eq, (hall s hs).1, h.depth]

end SymbolTable

/-! ## States -/

/-- A signature without the mark that the function calls itself in tail position. -/
def FunctionSig.plain (sig : FunctionSig) : FunctionSig := { sig with isTailRecursive := false }

theorem FunctionSig.Refines.of_plain {sig sig' : FunctionSig} (h : sig'.plain = sig.plain) :
  sig.Refines sig'
  := by
  have hname := congrArg FunctionSig.name h
  have hparams := congrArg FunctionSig.params h
  have hspan := congrArg FunctionSig.span h
  have htypeVars := congrArg FunctionSig.typeVars h
  have hresult := congrArg FunctionSig.result h
  exact ⟨hname, hparams, hspan, htypeVars, fun t ht => hresult.trans ht⟩

namespace CheckState

/-- The locals in scope. -/
def scope (s : CheckState) : TypeScope := s.symbols.locals

/-- A type can be the result type of the function around the current form. -/
def Expects (s : CheckState) (result : Ty) : Prop :=
  (∀ t, s.context.bind (·.declared) = some t → result = t)
    ∧ (s.context.bind (·.declared) = none → ∀ t, s.context.bind (·.inferred) = some t → result = t)

/--
What holds between two checks. Every signature of the unit is bound, imported signatures are those that are
offered, and every constant in scope has its value among the globals.
-/
structure Sound (n : Nat) (s : CheckState) : Prop where
  types : s.checked.exprTypes.length = n
  symbols : s.symbols.Sound
  bound : ∀ sig ∈ s.checked.signatures, ∃ b ∈ s.symbols.bindings, b.name = sig.name
  imported : ∀ sig ∈ s.checked.imported, s.imports.find? (·.name == sig.name) = some sig
  constants : ∀ b ∈ s.symbols.bindings, b.storage = .constant →
    s.checked.declared? b.name = none ∧ ∃ g, s.checked.global? b.name = some g ∧ g.type = b.type

end CheckState

/-- What the check of some expressions finds out about them and about the signatures that they use. -/
structure CheckedModule.Gains (ids : List Nat) (imports : List FunctionSig) (c c' : CheckedModule) : Prop where
  types : c.exprTypes.Changes ids c'.exprTypes
  dynamic : ∀ id, c.isDynamicIndex id = true → c'.isDynamicIndex id = true
  signatures : c'.signatures.map FunctionSig.plain = c.signatures.map FunctionSig.plain
  instantiations : c.instantiations ⊆ c'.instantiations
  imported : ∃ new, c'.imported = c.imported ++ new
    ∧ ∀ sig ∈ new, imports.find? (·.name == sig.name) = some sig
  globals : c'.globals = c.globals

namespace CheckedModule

variable {ids ids' : List Nat} {imports : List FunctionSig} {c c' c'' : CheckedModule}
variable {name : String} {sig : FunctionSig}

/-- Nothing that matters has been found out. -/
theorem Gains.of_eq (htypes : c'.exprTypes = c.exprTypes) (hdynamic : c'.dynamicIndices = c.dynamicIndices)
    (hsignatures : c'.signatures = c.signatures) (hinstantiations : c'.instantiations = c.instantiations)
    (himported : c'.imported = c.imported) (hglobals : c'.globals = c.globals) :
  c.Gains ids imports c'
  := by
  refine ⟨htypes ▸ .refl _ _, fun id h => ?_, by rw [hsignatures], hinstantiations ▸ List.Subset.refl _,
    ⟨[], by rw [himported, List.append_nil], List.forall_mem_nil _⟩, hglobals⟩
  rwa [isDynamicIndex, hdynamic]

theorem Gains.refl (ids : List Nat) (imports : List FunctionSig) (c : CheckedModule) :
  c.Gains ids imports c
  := .of_eq rfl rfl rfl rfl rfl rfl

theorem Gains.trans (h : c.Gains ids imports c') (h' : c'.Gains ids imports c'') :
  c.Gains ids imports c''
  := by
  obtain ⟨new, hnew, hall⟩ := h.imported
  obtain ⟨new', hnew', hall'⟩ := h'.imported
  exact ⟨h.types.trans h'.types, fun id hid => h'.dynamic id (h.dynamic id hid),
    h'.signatures.trans h.signatures, fun _ hx => h'.instantiations (h.instantiations hx),
    ⟨new ++ new', by rw [hnew', hnew, List.append_assoc], List.forall_mem_append.mpr ⟨hall, hall'⟩⟩,
    h'.globals.trans h.globals⟩

theorem Gains.mono (h : c.Gains ids imports c') (hids : ids ⊆ ids') :
  c.Gains ids' imports c'
  := { h with types := h.types.mono hids }

/-- The type of an expression is recorded. -/
theorem gains_record (id : Nat) (type : Ty) :
  c.Gains [id] imports { c with exprTypes := c.exprTypes.record id type }
  := { Gains.refl [id] imports c with types := changes_record id type }

theorem declared?_map {f : FunctionSig → FunctionSig} (hname : ∀ sig, (f sig).name = sig.name)
    (name : String) :
  { c with signatures := c.signatures.map f }.declared? name = (c.declared? name).map f
  := by
  simp only [declared?, List.find?_map, Function.comp_def, hname]

theorem declared?_of_plain (h : c'.signatures.map FunctionSig.plain = c.signatures.map FunctionSig.plain)
    (name : String) :
  (c'.declared? name).map FunctionSig.plain = (c.declared? name).map FunctionSig.plain
  := by
  rw [← declared?_map (f := FunctionSig.plain) (fun _ => rfl),
    ← declared?_map (f := FunctionSig.plain) (fun _ => rfl)]
  simp only [declared?, h]

/-- A signature that a unit declares itself is the one that its name stands for. -/
theorem signature?_of_declared? (h : c.declared? name = some sig) :
  c.signature? name = some sig
  := by
  rw [signature?, List.find?_append, show c.signatures.find? _ = _ from h]
  rfl

/-- The signature that a name stands for: one of the unit, and if there is none, an imported one. -/
theorem signature?_eq (c : CheckedModule) (name : String) :
  c.signature? name = (c.declared? name).or (c.imported.find? (·.name == name))
  := by rw [signature?, List.find?_append, declared?]

/-- What a name stands for does not change when result types are found and signatures are imported. -/
theorem signature?_of_rel {new : List FunctionSig}
    (hdeclared : ∀ name, Option.Rel FunctionSig.Refines (c.declared? name) (c'.declared? name))
    (himported : c'.imported = c.imported ++ new) (h : c.signature? name = some sig) :
  ∃ sig', c'.signature? name = some sig' ∧ sig.Refines sig'
  := by
  rw [signature?_eq] at h ⊢
  rw [himported, List.find?_append]
  have hrel := hdeclared name
  cases hfirst : c.declared? name with
  | some first =>
    rw [hfirst, Option.some_or] at h
    cases hrefined : c'.declared? name with
    | none =>
      rw [hfirst, hrefined] at hrel
      cases hrel
    | some sig' =>
      rw [hfirst, hrefined] at hrel
      obtain ⟨hrefines⟩ := hrel
      exact ⟨sig', rfl, Option.some.inj h ▸ hrefines⟩
  | none =>
    rw [hfirst, Option.none_or] at h
    cases hrefined : c'.declared? name with
    | none => exact ⟨sig, by rw [h]; rfl, .refl sig⟩
    | some sig' =>
      rw [hfirst, hrefined] at hrel
      cases hrel

theorem Gains.declared? (h : c.Gains ids imports c') (name : String) :
  Option.Rel FunctionSig.Refines (c.declared? name) (c'.declared? name)
  := by
  have hplain := declared?_of_plain h.signatures name
  cases hs : c.declared? name <;> cases hs' : c'.declared? name <;> rw [hs, hs'] at hplain
  · exact .none
  · cases hplain
  · cases hplain
  · exact .some (.of_plain (Option.some.inj hplain))

theorem Gains.signature? (h : c.Gains ids imports c') (hsig : c.signature? name = some sig) :
  ∃ sig', c'.signature? name = some sig' ∧ sig.Refines sig'
  := by
  obtain ⟨new, hnew, -⟩ := h.imported
  exact signature?_of_rel h.declared? hnew hsig

/-- What is known of other expressions stays known. -/
theorem Gains.agrees {parts : List Expr} (h : c.Gains ids imports c')
    (hparts : List.Disjoint (parts.map Expr.id) ids) :
  c.Agrees parts c'
  := by
  refine ⟨fun _ he => h.types.others _ (hparts (List.mem_map_of_mem he)), h.dynamic,
    fun name sig hsig => h.signature? hsig, h.instantiations, fun name g hg => ?_⟩
  rwa [global?, h.globals]

end CheckedModule

namespace CheckState

/-- What has been found out about some expressions, and about the function around them. -/
structure Learned (ids : List Nat) (s s' : CheckState) : Prop
    extends CheckedModule.Gains ids s.imports s.checked s'.checked where
  imports : s'.imports = s.imports
  declared : s'.context.map (·.declared) = s.context.map (·.declared)
  inferred : ∀ t, s.context.bind (·.inferred) = some t → s'.context.bind (·.inferred) = some t

/-- What a check of some expressions does to the state. -/
structure Grown (ids : List Nat) (s s' : CheckState) : Prop extends Learned ids s s' where
  symbols : s.symbols.Extends s'.symbols

variable {n : Nat} {ids ids' : List Nat} {s s' s'' : CheckState}

/-- Only what is known of the unit has changed. -/
theorem Learned.of_gains {checked : CheckedModule} (h : s.checked.Gains ids s.imports checked) :
  s.Learned ids { s with checked := checked }
  := ⟨h, rfl, rfl, fun _ => id⟩

theorem Learned.refl (ids : List Nat) (s : CheckState) :
  s.Learned ids s
  := .of_gains (.refl _ _ _)

section

variable (h : s.Learned ids s')

include h

theorem Learned.trans (h' : s'.Learned ids s'') :
  s.Learned ids s''
  := ⟨h.toGains.trans (h.imports ▸ h'.toGains), h'.imports.trans h.imports,
    h'.declared.trans h.declared, fun t ht => h'.inferred t (h.inferred t ht)⟩

theorem Learned.mono (hids : ids ⊆ ids') :
  s.Learned ids' s'
  := { h with toGains := h.toGains.mono hids }

theorem Learned.bind_declared :
  s'.context.bind (·.declared) = s.context.bind (·.declared)
  := by
  have hjoin : ∀ context : Option FunctionContext,
      context.bind (·.declared) = (context.map (·.declared)).join := by
    rintro (_ | _) <;> rfl
  rw [hjoin, hjoin, h.declared]

/-- The result type is settled once. -/
theorem Learned.expects {result : Ty} (hresult : s'.Expects result) :
  s.Expects result
  := by
  refine ⟨fun t ht => hresult.1 t (h.bind_declared.trans ht), fun hnone t ht => ?_⟩
  exact hresult.2 (h.bind_declared.trans hnone) t (h.inferred t ht)

/-- What is known of other expressions stays known. -/
theorem Learned.agrees {parts : List Expr} (hparts : List.Disjoint (parts.map Expr.id) ids) :
  s.checked.Agrees parts s'.checked
  := h.toGains.agrees hparts

end

theorem Grown.refl (ids : List Nat) (s : CheckState) :
  s.Grown ids s
  := ⟨.refl ids s, .refl _⟩

theorem Grown.trans (h : s.Grown ids s') (h' : s'.Grown ids s'') :
  s.Grown ids s''
  := ⟨h.toLearned.trans h'.toLearned, h.symbols.trans h'.symbols⟩

theorem Grown.mono (h : s.Grown ids s') (hids : ids ⊆ ids') :
  s.Grown ids' s'
  := ⟨h.toLearned.mono hids, h.symbols⟩

theorem Grown.sound (h : s.Grown ids s') (hs : s.Sound n) :
  s'.Sound n
  := by
  obtain ⟨new, hnew, hstack⟩ := h.symbols.bindings
  obtain ⟨imported, himported, hoffered⟩ := h.imported
  refine ⟨h.types.length.trans hs.types, h.symbols.sound hs.symbols, fun sig' hsig' => ?_, ?_, fun b hb hb' => ?_⟩
  · have hplain : sig'.plain ∈ s.checked.signatures.map FunctionSig.plain :=
      h.signatures ▸ List.mem_map_of_mem hsig'
    obtain ⟨sig, hsig, hsame⟩ := List.mem_map.mp hplain
    obtain ⟨b, hb, hname⟩ := hs.bound sig hsig
    have hsame : sig.name = sig'.name := (FunctionSig.Refines.of_plain hsame.symm).name.symm
    exact ⟨b, hnew ▸ List.mem_append_right _ hb, hname.trans hsame⟩
  · rw [himported, h.imports]
    exact List.forall_mem_append.mpr ⟨hs.imported, hoffered⟩
  · rw [hnew] at hb
    obtain hb | hb := List.mem_append.mp hb
    · cases hb'.symm.trans (hstack b hb).2
    · obtain ⟨hnone, hglobal⟩ := hs.constants b hb hb'
      refine ⟨?_, by rwa [CheckedModule.global?, h.globals]⟩
      have hrel := h.declared? b.name
      rw [hnone] at hrel
      cases hnone' : s'.checked.declared? b.name with
      | none => rfl
      | some sig =>
        rw [hnone'] at hrel
        cases hrel

/-- A new scope binds nothing. -/
theorem Sound.enter (h : s.Sound n) :
  { s with symbols := s.symbols.enter }.Sound n
  := { h with symbols := ⟨h.symbols.layered, h.symbols.isMutable⟩ }

/-- The number of loops around a form, and the function around it, concern only jumps. -/
theorem Sound.atDepth {context : Option FunctionContext} {loopDepth : Nat} (h : s.Sound n) :
  { s with context := context, loopDepth := loopDepth }.Sound n
  := ⟨h.types, h.symbols, h.bound, h.imported, h.constants⟩

/-- No expression gets a type, and nothing is declared. -/
def Kept (s s' : CheckState) : Prop := s.Grown [] s' ∧ s'.scope = s.scope

theorem Kept.refl (s : CheckState) :
  s.Kept s
  := ⟨.refl _ _, rfl⟩

theorem Kept.trans (h : s.Kept s') (h' : s'.Kept s'') :
  s.Kept s''
  := ⟨h.1.trans h'.1, h'.2.trans h.2⟩

theorem exists_expects (s : CheckState) :
  ∃ result, s.Expects result
  := by
  refine ⟨((s.context.bind (·.declared)).or (s.context.bind (·.inferred))).getD .none, ?_⟩
  refine ⟨fun t ht => by simp [ht], fun hnone t ht => by simp [hnone, ht]⟩

end CheckState

/-! ## What is known after a check -/

open CheckState

/-- What is known of a unit and of a result type stays known as long as some expressions do not change. -/
def Lasts (parts : List Expr) (p : CheckedModule → Ty → Prop) : Prop :=
  ∀ checked checked' result, checked.Agrees parts checked' → p checked result → p checked' result

/-- A check of some expressions after which something is known. -/
structure Checks (parts : List Expr) (p : CheckedModule → Ty → Prop) (s s' : CheckState) : Prop where
  grown : s.Grown (parts.map Expr.id) s'
  known : ∀ result, s'.Expects result → p s'.checked result

namespace Checks

variable {n : Nat} {parts parts' : List Expr} {p q : CheckedModule → Ty → Prop} {s s' s'' : CheckState}

theorem mono (h : Checks parts p s s')
    (hpq : ∀ result, s'.Expects result → p s'.checked result → q s'.checked result) :
  Checks parts q s s'
  := ⟨h.grown, fun result hresult => hpq result hresult (h.known result hresult)⟩

/-- What does not depend on the result type is known. -/
theorem of_known {p : CheckedModule → Prop} (h : Checks parts (fun c _ => p c) s s') :
  p s'.checked
  := by
  obtain ⟨result, hresult⟩ := s'.exists_expects
  exact h.known result hresult

/-- What is known stays known when nothing of it is checked again. -/
theorem later (h : Checks parts p s s') (hlasts : Lasts parts p) {ids : List Nat}
    (h' : s'.Learned ids s'') (hdisjoint : List.Disjoint (parts.map Expr.id) ids) (result : Ty)
    (hresult : s''.Expects result) :
  p s''.checked result
  := hlasts _ _ _ (h'.agrees hdisjoint) (h.known result (h'.expects hresult))

/-- Two checks one after the other. -/
theorem append (h : Checks parts p s s') (hlasts : Lasts parts p) (h' : Checks parts' q s' s'')
    (hnumbered : Numbered n (parts ++ parts')) :
  Checks (parts ++ parts') (fun c r => p c r ∧ q c r) s s''
  := by
  refine ⟨?_, fun result hresult => ⟨?_, h'.known result hresult⟩⟩
  · rw [List.map_append]
    exact (h.grown.mono (List.subset_append_left ..)).trans (h'.grown.mono (List.subset_append_right ..))
  · exact h.later hlasts h'.grown.toLearned hnumbered.disjoint result hresult

/-- A check and then something that concerns no expressions. -/
theorem andThen (h : Checks parts p s s') (hlasts : Lasts parts p) (h' : s'.Grown [] s'') :
  Checks parts p s s''
  := ⟨h.grown.trans (h'.mono (List.nil_subset _)), h.later hlasts h'.toLearned (by simp)⟩

/-- Something that concerns no expressions, and then a check. -/
theorem after (h : s.Grown [] s') (h' : Checks parts p s' s'') :
  Checks parts p s s''
  := ⟨(h.mono (List.nil_subset _)).trans h'.grown, h'.known⟩

end Checks

theorem Lasts.and {parts parts' : List Expr} {p q : CheckedModule → Ty → Prop} (hp : Lasts parts p)
    (hq : Lasts parts' q) :
  Lasts (parts ++ parts') fun c r => p c r ∧ q c r
  := fun _ _ _ hagrees h => ⟨hp _ _ _ (hagrees.mono (List.subset_append_left ..)) h.1,
    hq _ _ _ (hagrees.mono (List.subset_append_right ..)) h.2⟩

/-! ## Actions -/

namespace Check

variable {n : Nat} {s : CheckState} {α : Type}

theorem ensures_fail {span : Span} {kind : ProblemKind} {post : α → CheckState → Prop} :
  Ensures s (fail span kind) post
  := Ensures.throw

theorem bind_fail {β : Type} {span : Span} {kind : ProblemKind} {k : α → Check β}
    {post : β → CheckState → Prop} :
  Ensures s (fail span kind >>= k) post
  := Ensures.bind_throw

/-- Something is learned that concerns no expressions. -/
theorem ensures_learn {change : CheckedModule → CheckedModule}
    (h : s.checked.Gains [] s.imports (change s.checked)) :
  Ensures s (learn change) fun _ s' => s' = { s with checked := change s.checked } ∧ s.Kept s'
  := .modify ⟨rfl, ⟨.of_gains h, .refl _⟩, rfl⟩

theorem ensures_warn (span : Span) (kind : WarningKind) :
  Ensures s (warn span kind) fun _ s' => s.Kept s'
  := (ensures_learn (.of_eq rfl rfl rfl rfl rfl rfl)).mono fun _ _ h => h.2

/-- A local is declared. -/
theorem ensures_declare {symbol : Symbol} (hstack : symbol.storage = .stack) :
  Ensures s (declare symbol) fun _ s' =>
    s.Grown [] s' ∧ s'.scope = (symbol.name, ⟨symbol.type, symbol.isMutable⟩) :: s.scope
  := by
  refine .bind_get ?_
  split
  · exact .throw
  · next hidden symbols hdeclare =>
    obtain ⟨hdepth, hbindings⟩ := SymbolTable.of_declare hdeclare
    have hgrown : s.Grown [] { s with symbols := symbols } := by
      refine ⟨⟨.refl _ _ _, rfl, rfl, fun _ => id⟩, hdepth, [_], hbindings, ?_⟩
      simpa using hstack
    have hscope : { s with symbols := symbols }.scope
        = (symbol.name, ⟨symbol.type, symbol.isMutable⟩) :: s.scope := by
      simp [CheckState.scope, SymbolTable.locals, hbindings, SymbolTable.localsOf, hstack]
    refine .bind_modify ?_
    cases hidden with
    | none => exact .pure ⟨hgrown, hscope⟩
    | some outer =>
      dsimp only
      rw [if_pos hstack]
      refine (ensures_warn _ _).mono fun _ s' h => ?_
      exact ⟨hgrown.trans h.1, h.2.trans hscope⟩

theorem ensures_leaveScope :
  Ensures s leaveScope fun _ s' => s'.symbols = s.symbols.leave.2 ∧ s'.context = s.context
    ∧ s'.imports = s.imports ∧ ∃ warnings, s'.checked = { s.checked with warnings := warnings }
  := by
  refine .bind_get ?_
  rcases hleave : s.symbols.leave with ⟨released, symbols⟩
  exact .bind_modify (.modify ⟨rfl, rfl, rfl, _, rfl⟩)

/-- What is declared in a scope is not declared after it. -/
theorem ensures_inScope {check : Check α} {parts : List Expr} {p : α → CheckedModule → Ty → Prop}
    (hs : s.Sound n) (hlasts : ∀ a, Lasts parts (p a))
    (hcheck : ∀ s₁, s₁.Sound n → s₁.scope = s.scope →
      Ensures s₁ check fun a s₂ => Checks parts (p a) s₁ s₂) :
  Ensures s (inScope check) fun a s' => Checks parts (p a) s s' ∧ s'.scope = s.scope
  := by
  refine .bind_modify ((hcheck { s with symbols := s.symbols.enter } hs.enter rfl).bind fun a s₂ h => ?_)
  refine ensures_leaveScope.bind ?_
  rintro _ s₃ ⟨hsymbols, hcontext, himports, warnings, hchecked⟩
  obtain ⟨hdepth, hbindings⟩ := SymbolTable.leave_of_enter h.grown.symbols
  rw [← hsymbols] at hdepth hbindings
  have hgains : s₂.checked.Gains [] s.imports s₃.checked :=
    hchecked ▸ .of_eq rfl rfl rfl rfl rfl rfl
  refine .pure ⟨⟨⟨⟨?_, ?_, ?_, ?_⟩, .of_eq hdepth hbindings⟩, fun result hresult => ?_⟩, ?_⟩
  · exact h.grown.toGains.trans (hgains.mono (List.nil_subset _))
  · exact himports.trans h.grown.imports
  · exact hcontext ▸ h.grown.declared
  · exact hcontext ▸ h.grown.inferred
  · rw [Expects, hcontext] at hresult
    exact hlasts a _ _ _ (hgains.agrees (by simp)) (h.known result hresult)
  · exact congrArg SymbolTable.localsOf hbindings

/-- The number of loops around a form concerns only jumps. -/
theorem ensures_inLoop {check : Check α} {parts : List Expr} {p : α → TypeScope → CheckedModule → Ty → Prop}
    {q : TypeScope → Prop} (hs : s.Sound n)
    (hcheck : ∀ s₁, s₁.Sound n → s₁.scope = s.scope →
      Ensures s₁ check fun a s₂ => Checks parts (p a s₂.scope) s₁ s₂ ∧ q s₂.scope) :
  Ensures s (inLoop check) fun a s' => Checks parts (p a s'.scope) s s' ∧ q s'.scope
  := by
  refine .bind_modify ((hcheck { s with loopDepth := s.loopDepth + 1 } hs.atDepth rfl).bind
    fun a s₂ h => .bind_modify (.pure ⟨⟨⟨⟨h.1.grown.toGains, ?_, ?_, ?_⟩, ?_⟩, h.1.known⟩, h.2⟩))
  · exact h.1.grown.imports
  · exact h.1.grown.declared
  · exact h.1.grown.inferred
  · exact h.1.grown.symbols

end Check

end FormCompiler
