import FormCompiler.Flow.ValueType
import FormCompiler.Proofs.Ty.Matching

/-!
# Composition of substitutions

An instance of a generic function names and types the generic calls inside it by substitutions whose bindings
mention the variables of the caller. On types whose variables are all bound, rewriting these bindings by the
substitution of the caller is the same as applying the one substitution after the other
(`Substitution.compose_spec`). Once no binding has variables, every type whose variables are bound is one of
values.
-/

namespace FormCompiler

/-! ## Assignments in a row -/

/-- What variables stand for if what they stood for is rewritten. -/
def Assignment.andThen (ρ ρ' : Assignment) : Assignment where
  type name := (ρ.type name).assign ρ'
  length name := (ρ.length name).assign ρ'

theorem ArrayLength.assign_assign (ρ ρ' : Assignment) (length : ArrayLength) :
  (length.assign ρ).assign ρ' = length.assign (ρ.andThen ρ')
  := by cases length <;> rfl

mutual

theorem Ty.assign_assign (ρ ρ' : Assignment) :
    ∀ type : Ty, (type.assign ρ).assign ρ' = type.assign (ρ.andThen ρ')
  | .array element length => by
    simp only [Ty.assign, Ty.assign_assign ρ ρ' element, length.assign_assign]
  | .tuple elements => by simp only [Ty.assign, assignAll_assignAll ρ ρ' elements]
  | .function params result => by
    simp only [Ty.assign, assignAll_assignAll ρ ρ' params, Ty.assign_assign ρ ρ' result]
  | .var _ => rfl
  | .int | .frac | .bool | .str | .ptr | .none | .sizedInt _ | .sizedFrac _ => rfl

theorem assignAll_assignAll (ρ ρ' : Assignment) :
    ∀ types : List Ty, assignAll ρ' (assignAll ρ types) = assignAll (ρ.andThen ρ') types
  | [] => rfl
  | type :: types => by
    simp only [assignAll, Ty.assign_assign ρ ρ' type, assignAll_assignAll ρ ρ' types]

end

/-- Two assignments let a variable stand for the same in one of its uses. -/
def Assignment.SameOn (ρ ρ' : Assignment) (x : String × VarKind) : Prop :=
  ρ.binding x.1 x.2 = ρ'.binding x.1 x.2

variable {ρ ρ' : Assignment}

theorem ArrayLength.assign_congr {length : ArrayLength} (h : ∀ x ∈ length.occurrences, ρ.SameOn ρ' x) :
  length.assign ρ = length.assign ρ'
  := by
  cases length with
  | fixed n => rfl
  | var name => exact Binding.length.inj (h (name, .length) List.mem_cons_self)

mutual

/-- A type depends only on what the variables that occur in it stand for. -/
theorem Ty.assign_congr : ∀ {type : Ty}, (∀ x ∈ type.occurrences, ρ.SameOn ρ' x) → type.assign ρ = type.assign ρ'
  | .var name, h => Binding.type.inj (h (name, .type) (by rw [Ty.occurrences]; exact List.mem_cons_self))
  | .array element length, h => by
    rw [Ty.occurrences, List.forall_mem_append] at h
    rw [Ty.assign, Ty.assign, Ty.assign_congr h.1, ArrayLength.assign_congr h.2]
  | .tuple elements, h => by
    rw [Ty.occurrences] at h
    rw [Ty.assign, Ty.assign, assignAll_congr h]
  | .function params result, h => by
    rw [Ty.occurrences, List.forall_mem_append] at h
    rw [Ty.assign, Ty.assign, assignAll_congr h.1, Ty.assign_congr h.2]
  | .int, _ | .frac, _ | .bool, _ | .str, _ | .ptr, _ | .none, _ | .sizedInt _, _ | .sizedFrac _, _ => rfl

theorem assignAll_congr : ∀ {types : List Ty}, (∀ x ∈ occurrencesIn types, ρ.SameOn ρ' x) →
    assignAll ρ types = assignAll ρ' types
  | [], _ => rfl
  | type :: types, h => by
    rw [occurrencesIn, List.forall_mem_append] at h
    rw [assignAll, assignAll, Ty.assign_congr h.1, assignAll_congr h.2]

end

/-! ## Types without variables -/

/-- An assignment lets a variable stand for something without variables in one of its uses. -/
def Assignment.Settles (ρ : Assignment) (x : String × VarKind) : Prop := (ρ.binding x.1 x.2).isGeneric = false

theorem ArrayLength.isGeneric_assign {length : ArrayLength} (h : ∀ x ∈ length.occurrences, ρ.Settles x) :
  (length.assign ρ).isGeneric = false
  := by
  cases length with
  | fixed n => rfl
  | var name => exact h (name, .length) List.mem_cons_self

mutual

theorem Ty.isGeneric_assign : ∀ {type : Ty}, (∀ x ∈ type.occurrences, ρ.Settles x) →
    (type.assign ρ).isGeneric = false
  | .var name, h => h (name, .type) (by rw [Ty.occurrences]; exact List.mem_cons_self)
  | .array element length, h => by
    rw [Ty.occurrences, List.forall_mem_append] at h
    rw [Ty.assign, Ty.isGeneric, Ty.isGeneric_assign h.1, ArrayLength.isGeneric_assign h.2, Bool.or_false]
  | .tuple elements, h => by
    rw [Ty.occurrences] at h
    rw [Ty.assign, Ty.isGeneric, anyGeneric_assignAll h]
  | .function params result, h => by
    rw [Ty.occurrences, List.forall_mem_append] at h
    rw [Ty.assign, Ty.isGeneric, anyGeneric_assignAll h.1, Ty.isGeneric_assign h.2, Bool.or_false]
  | .int, _ | .frac, _ | .bool, _ | .str, _ | .ptr, _ | .none, _ | .sizedInt _, _ | .sizedFrac _, _ => rfl

theorem anyGeneric_assignAll : ∀ {types : List Ty}, (∀ x ∈ occurrencesIn types, ρ.Settles x) →
    anyGeneric (assignAll ρ types) = false
  | [], _ => rfl
  | type :: types, h => by
    rw [occurrencesIn, List.forall_mem_append] at h
    rw [assignAll, anyGeneric, Ty.isGeneric_assign h.1, anyGeneric_assignAll h.2, Bool.or_false]

end

namespace Flow

mutual

theorem ValueType.isSome_ofTy? : ∀ {type : Ty}, type.isGeneric = false → (ValueType.ofTy? type).isSome
  | .array element (.fixed n), h => by
    obtain ⟨e, he⟩ := Option.isSome_iff_exists.mp (ValueType.isSome_ofTy? (Bool.or_eq_false_iff.mp h).2)
    simp [ValueType.ofTy?, he]
  | .array _ (.var _), h => by simp [Ty.isGeneric, ArrayLength.isGeneric] at h
  | .tuple elements, h => by
    obtain ⟨ts, hts⟩ := Option.isSome_iff_exists.mp (isSome_valueTypes? h)
    simp [ValueType.ofTy?, hts]
  | .function params result, h => by
    obtain ⟨hparams, hresult⟩ := Bool.or_eq_false_iff.mp h
    obtain ⟨ts, hts⟩ := Option.isSome_iff_exists.mp (isSome_valueTypes? hparams)
    obtain ⟨t, ht⟩ := Option.isSome_iff_exists.mp (ValueType.isSome_ofTy? hresult)
    simp [ValueType.ofTy?, hts, ht]
  | .var _, h => by simp [Ty.isGeneric] at h
  | .int, _ | .frac, _ | .bool, _ | .str, _ | .ptr, _ | .none, _ | .sizedInt _, _ | .sizedFrac _, _ => rfl

theorem isSome_valueTypes? : ∀ {types : List Ty}, anyGeneric types = false → (valueTypes? types).isSome
  | [], _ => rfl
  | type :: types, h => by
    obtain ⟨htype, htypes⟩ := Bool.or_eq_false_iff.mp h
    obtain ⟨t, ht⟩ := Option.isSome_iff_exists.mp (ValueType.isSome_ofTy? htype)
    obtain ⟨ts, hts⟩ := Option.isSome_iff_exists.mp (isSome_valueTypes? htypes)
    simp [valueTypes?, ht, hts]

end

end Flow

/-! ## Composition -/

namespace Substitution

variable {σ : Substitution}
variable {x : String × VarKind}

theorem names_compose (σ outer : Substitution) : (σ.compose outer).names = σ.names
  := by simp [names, compose]

theorem get?_compose (σ outer : Substitution) (name : String) :
  (σ.compose outer).get? name = (σ.get? name).map outer.applyBinding
  := by
  obtain ⟨bindings⟩ := σ
  induction bindings with
  | nil => rfl
  | cons b bindings ih =>
    obtain ⟨other, b⟩ := b
    simp only [get?, compose, List.map_cons, List.lookup_cons] at ih ⊢
    cases name == other with
    | true => rfl
    | false => exact ih

theorem binding_assignment {b : Binding} (hget : σ.get? x.1 = some b) (hkind : b.kind = x.2) :
  σ.assignment.binding x.1 x.2 = b
  := hkind ▸ meets_of_get? (d := (x.1, b)) hget

theorem kind_applyBinding (outer : Substitution) (b : Binding) : (outer.applyBinding b).kind = b.kind
  := by cases b <;> rfl

theorem Binds.sameOn_compose (h : σ.Binds x) (outer : Substitution) :
  (σ.compose outer).assignment.SameOn (σ.assignment.andThen outer.assignment) x
  := by
  obtain ⟨name, kind⟩ := x
  obtain ⟨b, hget, rfl⟩ := h
  have hcompose : (σ.compose outer).get? name = some (outer.applyBinding b) := by
    rw [get?_compose, hget, Option.map_some]
  have hb : σ.assignment.binding name b.kind = b := binding_assignment (x := (name, b.kind)) hget rfl
  rw [Assignment.SameOn, binding_assignment (x := (name, b.kind)) hcompose (outer.kind_applyBinding b)]
  cases b with
  | type t =>
    rw [applyBinding, apply_eq_assign, ← Binding.type.inj hb]
    rfl
  | length n =>
    rw [applyBinding, applyLength_eq_assign, ← Binding.length.inj hb]
    rfl

theorem Binds.settles (h : σ.Binds x) (hconcrete : σ.isConcrete = true) :
  σ.assignment.Settles x
  := by
  obtain ⟨b, hget, hkind⟩ := h
  obtain ⟨l₁, l₂, hbindings, -⟩ := List.lookup_eq_some_iff.mp hget
  have hmem : (x.1, b) ∈ σ.bindings := by
    rw [hbindings]
    simp
  rw [Assignment.Settles, binding_assignment hget hkind]
  simpa using List.all_eq_true.mp hconcrete _ hmem

/--
On types whose variables are bound, a composed substitution acts as its parts do one after the other. It binds
the same variables in the same order. A type whose variables are bound to types and lengths without variables
becomes one of values.
-/
theorem compose_spec (σ outer : Substitution) :
  (∀ type, (∀ x ∈ type.occurrences, σ.Binds x) → (σ.compose outer).apply type = outer.apply (σ.apply type)) ∧
    (σ.compose outer).names = σ.names ∧
    (σ.isConcrete = true →
      ∀ type, (∀ x ∈ type.occurrences, σ.Binds x) → (Flow.ValueType.ofTy? (σ.apply type)).isSome)
  := by
  refine ⟨fun type hbinds => ?_, σ.names_compose outer, fun hconcrete type hbinds => ?_⟩
  · rw [apply_eq_assign, apply_eq_assign outer, apply_eq_assign σ, Ty.assign_assign]
    exact Ty.assign_congr fun x hx => (hbinds x hx).sameOn_compose outer
  · rw [apply_eq_assign]
    exact Flow.ValueType.isSome_ofTy? (Ty.isGeneric_assign fun x hx => (hbinds x hx).settles hconcrete)

/-- What a function generic in `t` and `n` binds in a call of itself. -/
def innerCall : Substitution :=
  ⟨[("t", .type (.array (.var "t") (.var "n"))), ("n", .length (.var "n")), ("u", .type (.var "v"))]⟩

/-- What a call from a function without variables binds. -/
def outerCall : Substitution := ⟨[("n", .length (.fixed 3)), ("t", .type .bool)]⟩

/-- The variable `v` is left, as the outer call does not bind it. -/
theorem compose_innerCall :
  (innerCall.compose outerCall).apply (.tuple [.array (.var "t") (.var "n"), .var "u"]) =
      .tuple [.array (.array .bool (.fixed 3)) (.fixed 3), .var "v"] ∧
    (innerCall.compose outerCall).names = ["t", "n", "u"] ∧
    (Flow.ValueType.ofTy? (outerCall.apply (.function [.var "t"] (.array (.var "t") (.var "n"))))).isSome
  := by
  have h := compose_spec innerCall outerCall
  refine ⟨(h.1 _ fun x hx => ?_).trans (by decide), h.2.1.trans (by decide),
    (compose_spec outerCall empty).2.2 (by decide) _ fun x hx => ?_⟩
  all_goals
    simp only [Ty.occurrences, occurrencesIn, ArrayLength.occurrences, List.append_nil, List.cons_append,
      List.nil_append, List.mem_cons, List.not_mem_nil, or_false] at hx
  · obtain rfl | rfl | rfl := hx <;> exact ⟨_, rfl, rfl⟩
  · obtain rfl | rfl | rfl := hx <;> exact ⟨_, rfl, rfl⟩

end Substitution

end FormCompiler
