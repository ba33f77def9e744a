import FormCompiler.Proofs.Typing.Module

/-!
# Imports and exports of checked units

All rounds of the checker look up imports by name only, so what is found out about a unit depends on the
imports only through the signature that each name has there (`checkModule_congr`). A unit declares each
name once: the names of its signatures are distinct, also in a unit with problems
(`Module.nodup_signatures`).
-/

namespace FormCompiler

open CheckState

variable {imports imports' : List FunctionSig}

/-! ## Other imports -/

namespace CheckState

end CheckState

/-! ## Declared names -/

/-- Only the outermost scope is open, and it binds the names of all signatures, which are distinct. -/
structure CheckState.Registered (s : CheckState) : Prop where
  depth : s.symbols.depth = 0
  bound : ∀ sig ∈ s.checked.signatures, (s.symbols.peek? sig.name).isSome = true
  nodup : (s.checked.signatures.map (·.name)).Nodup

namespace Check

variable {s : CheckState}

/-- The outermost scope binds a name once, or nothing changes. -/
theorem declare_of_registered (hs : s.Registered) (symbol : Symbol) :
  (∃ e, declare symbol s = (.error e, s))
    ∨ s.symbols.peek? symbol.name = none ∧ declare symbol s
      = (.ok (), s.bind (·.push symbol))
  := by
  rw [declare_apply]
  cases hpeek : s.symbols.peek? symbol.name with
  | none => exact .inr ⟨rfl, rfl⟩
  | some bound =>
    have hinnermost : s.symbols.isInnermost bound = true := by
      rw [SymbolTable.isInnermost, hs.depth, beq_iff_eq]
      exact Nat.le_zero.mp (hs.depth ▸ s.symbols.depth_le_of_mem_symbols (SymbolTable.of_peek? hpeek).1)
    dsimp only
    rw [if_pos hinnermost]
    exact .inl ⟨_, rfl⟩

/-- A new signature has a new name, whether the form it stands in succeeds or not. -/
theorem registered_signature (hs : s.Registered) (kind : FunctionKind) (name : String)
    (params : List Param) (result : Option Ty) (span : Span) :
  (signature kind name params result span s).2.Registered
  := by
  unfold signature
  rw [Ensures.bind_apply]
  cases hsig : FunctionSig.ofDecl kind name params result span with
  | error e => exact hs
  | ok sig =>
    obtain rfl := (FunctionSig.of_ofDecl hsig).1
    change CheckState.Registered ((declare _ >>= fun _ => _ : Check Unit) s).2
    rw [Ensures.bind_apply]
    obtain ⟨e, hdeclare⟩ | ⟨hunbound, hdeclare⟩ := declare_of_registered hs
      (.ofStorage kind.storage false sig.name (sig.type?.getD (.function sig.paramTypes .none)) span)
    · rw [hdeclare]
      exact hs
    · rw [hdeclare]
      have hnew : ∀ other ∈ s.checked.signatures, other.name ≠ sig.name := by
        intro other hother hname
        have hbound := hs.bound other hother
        rw [hname, show s.symbols.peek? sig.name = none from hunbound] at hbound
        cases hbound
      refine ⟨(s.symbols.depth_push _).trans hs.depth, ?_, ?_⟩
      · change ∀ other ∈ s.checked.signatures ++ [sig], ((s.symbols.push _).peek? other.name).isSome = true
        refine List.forall_mem_append.mpr ⟨fun other hother => ?_, ?_⟩
        · have hbound := hs.bound other hother
          rw [SymbolTable.peek?_eq] at hbound
          rw [SymbolTable.peek?_eq, SymbolTable.symbols_push, List.find?_cons]
          split
          · rfl
          · exact hbound
        · rw [List.forall_mem_singleton, SymbolTable.peek?_eq, SymbolTable.symbols_push]
          simp [Symbol.ofStorage]
      · change ((s.checked.signatures ++ [sig]).map (·.name)).Nodup
        rw [List.map_append, List.nodup_append]
        refine ⟨hs.nodup, List.nodup_singleton _, ?_⟩
        simpa using hnew

theorem registered_itemSignatures (hs : s.Registered) (item : Item) :
  (itemSignatures item s).2.Registered
  := by
  cases item with
  | function decl | operator decl => exact registered_signature hs _ _ _ _ _
  | foreign decl =>
    change CheckState.Registered (decl.functions.forM
      (fun f => signature (.foreign decl.library) f.name f.params f.result f.span) s).2
    induction decl.functions generalizing s with
    | nil => exact hs
    | cons f functions ih =>
      change CheckState.Registered ((_ >>= fun _ => functions.forM _ : Check Unit) s).2
      rw [Ensures.bind_apply]
      dsimp only
      have hfirst := registered_signature hs (.foreign decl.library) f.name f.params f.result f.span
      rcases hrun : signature (.foreign decl.library) f.name f.params f.result f.span s with ⟨_ | _, s'⟩
      all_goals rw [hrun] at hfirst
      · exact hfirst
      · exact ih hfirst
  | _ => exact hs

end Check

theorem CheckState.Registered.declareSignatures {s : CheckState} (hs : s.Registered) (item : Item) :
  (s.declareSignatures item).Registered
  := by
  have happly : (ExceptT.run (Check.itemSignatures item)).run s = Check.itemSignatures item s := rfl
  have hnext := Check.registered_itemSignatures hs item
  rw [CheckState.declareSignatures, attempt, happly]
  rcases hrun : Check.itemSignatures item s with ⟨e | _, s'⟩
  all_goals rw [hrun] at hnext
  · dsimp only
    rw [s'.symbols.truncate_of_le hnext.depth.le]
    exact ⟨hnext.depth, hnext.bound, hnext.nodup⟩
  · exact hnext

theorem Module.registered_signatures (m : Module) :
  (m.flatItems.foldl CheckState.declareSignatures (.initial [] m.exprCount)).Registered
  := by
  have hinitial : (CheckState.initial [] m.exprCount).Registered :=
    ⟨rfl, by simp [CheckState.initial, CheckedModule.initial], by simp [CheckState.initial, CheckedModule.initial]⟩
  have hall : ∀ (items : List Item) {s : CheckState}, s.Registered →
      (items.foldl CheckState.declareSignatures s).Registered := by
    intro items
    induction items with
    | nil => exact fun hs => hs
    | cons item items ih => exact fun hs => ih (hs.declareSignatures item)
  exact hall m.flatItems hinitial

/-- A unit declares each name once. -/
theorem Module.nodup_signatures (m : Module) :
  (m.signatures.map (·.name)).Nodup
  := m.registered_signatures.nodup

end FormCompiler
