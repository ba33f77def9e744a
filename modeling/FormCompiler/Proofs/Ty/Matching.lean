import FormCompiler.Ty.Substitution
import Mathlib.Data.List.Basic

/-!
# Matching

Only the variables of parameter types are bound, so unification goes one way. What the variables of a
parameter type have to stand for is read off the argument type (`Ty.demands?`), and an assignment makes the
one type the other if and only if it meets these demands (`Ty.assign_eq_iff`). Unification makes them
bindings, one after the other (`Substitution.result?_unify`), and fails only if the shapes differ or if two
demands on a variable do. As types and lengths are bound in one list, a variable must not be used for both.
-/

namespace FormCompiler

variable {params args : List Ty} {param arg : ArrayLength}

/-! ## Kinds of variables -/

/-- What a variable is used for. -/
inductive VarKind where
  | type
  | length
deriving DecidableEq, Repr

/-- The use of a variable that a binding is for. -/
def Binding.kind : Binding → VarKind
  | type _ => .type
  | length _ => .length

/-- The variables in a length with their use. -/
def ArrayLength.occurrences : ArrayLength → List (String × VarKind)
  | fixed _ => []
  | var name => [(name, .length)]

mutual

/-- Every occurrence of a variable in a type with its use, from left to right. -/
def Ty.occurrences : Ty → List (String × VarKind)
  | .var name => [(name, .type)]
  | .array element length => element.occurrences ++ length.occurrences
  | .tuple elements => occurrencesIn elements
  | .function params result => occurrencesIn params ++ result.occurrences
  | .int | .frac | .bool | .str | .ptr | .none | .sizedInt _ | .sizedFrac _ => []

/-- Every occurrence of a variable in a list of types with its use, from left to right. -/
def occurrencesIn : List Ty → List (String × VarKind)
  | [] => []
  | type :: types => type.occurrences ++ occurrencesIn types

end

/-- No variable is used both for types and for lengths. -/
def HaveOneKind (types : List Ty) : Prop :=
  ∀ x ∈ occurrencesIn types, ∀ y ∈ occurrencesIn types, x.1 = y.1 → x.2 = y.2

instance (types : List Ty) : Decidable (HaveOneKind types) :=
  inferInstanceAs (Decidable (∀ x ∈ occurrencesIn types, ∀ y ∈ occurrencesIn types, x.1 = y.1 → x.2 = y.2))

theorem ArrayLength.map_occurrences (length : ArrayLength) :
  length.occurrences.map Prod.fst = length.vars
  := by cases length <;> rfl

mutual

theorem Ty.map_occurrences : ∀ type : Ty, type.occurrences.map Prod.fst = type.varOccurrences
  | .array element length => by
    simp only [Ty.occurrences, Ty.varOccurrences, List.map_append, element.map_occurrences,
      length.map_occurrences]
  | .tuple elements => by simp only [Ty.occurrences, Ty.varOccurrences, map_occurrencesIn elements]
  | .function params result => by
    simp only [Ty.occurrences, Ty.varOccurrences, List.map_append, map_occurrencesIn params,
      result.map_occurrences]
  | .var _ => rfl
  | .int | .frac | .bool | .str | .ptr | .none | .sizedInt _ | .sizedFrac _ => rfl

theorem map_occurrencesIn : ∀ types : List Ty,
    (occurrencesIn types).map Prod.fst = varOccurrencesIn types
  | [] => rfl
  | type :: types => by
    simp only [occurrencesIn, varOccurrencesIn, List.map_append, type.map_occurrences,
      map_occurrencesIn types]

end

/-! ## Assignments -/

/-- Types and lengths that variables stand for. -/
structure Assignment where
  type : String → Ty
  length : String → ArrayLength

/-- What a variable stands for in one of its uses. -/
def Assignment.binding (ρ : Assignment) (name : String) : VarKind → Binding
  | .type => .type (ρ.type name)
  | .length => .length (ρ.length name)

/-- A length with its variable replaced by what it stands for. -/
def ArrayLength.assign (ρ : Assignment) : ArrayLength → ArrayLength
  | fixed n => fixed n
  | var name => ρ.length name

mutual

/-- A type with all variables replaced by what they stand for. -/
def Ty.assign (ρ : Assignment) : Ty → Ty
  | .var name => ρ.type name
  | .array element length => .array (element.assign ρ) (length.assign ρ)
  | .tuple elements => .tuple (assignAll ρ elements)
  | .function params result => .function (assignAll ρ params) (result.assign ρ)
  | .int => .int
  | .frac => .frac
  | .bool => .bool
  | .str => .str
  | .ptr => .ptr
  | .none => .none
  | .sizedInt bits => .sizedInt bits
  | .sizedFrac bits => .sizedFrac bits

/-- Several types with all variables replaced by what they stand for. -/
def assignAll (ρ : Assignment) : List Ty → List Ty
  | [] => []
  | type :: types => type.assign ρ :: assignAll ρ types

end

theorem assignAll_eq_map (ρ : Assignment) (types : List Ty) :
  assignAll ρ types = types.map (Ty.assign ρ)
  := by
  induction types with
  | nil => rfl
  | cons type types ih => rw [assignAll, ih, List.map_cons]

/-! ## Demands -/

/-- A variable and what it has to stand for. -/
abbrev Demand := String × Binding

/-- The use of a variable that a demand is about. -/
def Demand.occurrence (d : Demand) : String × VarKind := (d.1, d.2.kind)

/-- An assignment gives a variable what it has to stand for. -/
def Assignment.Meets (ρ : Assignment) (d : Demand) : Prop := ρ.binding d.1 d.2.kind = d.2

/-- The demands of two matches, if neither is impossible. -/
def bothDemands? (first second : Option (List Demand)) : Option (List Demand) := do
  return (← first) ++ (← second)

/-- What the variable in a length has to stand for so that it becomes another length. -/
def ArrayLength.demands? : ArrayLength → ArrayLength → Option (List Demand)
  | var name, length => some [(name, .length length)]
  | fixed n, length => if fixed n = length then some [] else none

/-- A type without variables demands nothing to become itself. -/
def demandsOfSame? (param arg : Ty) : Option (List Demand) := if param = arg then some [] else none

mutual

/-- What the variables in a type have to stand for so that it becomes another type. -/
def Ty.demands? : Ty → Ty → Option (List Demand)
  | .var name, arg => some [(name, .type arg)]
  | .array element length, .array element' length' =>
    bothDemands? (element.demands? element') (length.demands? length')
  | .tuple elements, .tuple elements' => demandsOf? elements elements'
  | .function params result, .function params' result' =>
    bothDemands? (demandsOf? params params') (result.demands? result')
  | .int, arg => demandsOfSame? .int arg
  | .frac, arg => demandsOfSame? .frac arg
  | .bool, arg => demandsOfSame? .bool arg
  | .str, arg => demandsOfSame? .str arg
  | .ptr, arg => demandsOfSame? .ptr arg
  | .none, arg => demandsOfSame? .none arg
  | .sizedInt bits, arg => demandsOfSame? (.sizedInt bits) arg
  | .sizedFrac bits, arg => demandsOfSame? (.sizedFrac bits) arg
  | .array _ _, _ | .tuple _, _ | .function _ _, _ => Option.none

/-- What the variables in several types have to stand for so that they become other types. -/
def demandsOf? : List Ty → List Ty → Option (List Demand)
  | [], [] => some []
  | param :: params, arg :: args => bothDemands? (param.demands? arg) (demandsOf? params args)
  | [], _ :: _ | _ :: _, [] => none

end

variable {first second : Option (List Demand)} {ds : List Demand}

theorem bothDemands?_eq_some :
  bothDemands? first second = some ds ↔ ∃ es es', first = some es ∧ second = some es' ∧ es ++ es' = ds
  := by
  cases first <;> cases second <;> simp [bothDemands?]

theorem length_of_demandsOf? (h : demandsOf? params args = some ds) :
  params.length = args.length
  := by
  induction params generalizing args ds with
  | nil => cases args with
    | nil => rfl
    | cons => simp [demandsOf?] at h
  | cons param params ih => cases args with
    | nil => simp [demandsOf?] at h
    | cons arg args =>
      obtain ⟨_, _, -, hrest, -⟩ := bothDemands?_eq_some.mp h
      rw [List.length_cons, List.length_cons, ih hrest]

theorem demandsOf?_eq_none (h : params.length ≠ args.length) :
  demandsOf? params args = none
  := Option.eq_none_iff_forall_ne_some.mpr fun _ hds => h (length_of_demandsOf? hds)

theorem ArrayLength.occurrences_demands? (h : param.demands? arg = some ds) :
  ds.map Demand.occurrence = param.occurrences
  := by
  cases param with
  | fixed n =>
    rw [ArrayLength.demands?, Option.ite_none_right_eq_some] at h
    cases h.2
    rfl
  | var name =>
    cases h
    rfl

theorem occurrences_demandsOfSame? {param arg : Ty} (h : demandsOfSame? param arg = some ds) :
  ds.map Demand.occurrence = []
  := by
  rw [demandsOfSame?, Option.ite_none_right_eq_some] at h
  cases h.2
  rfl

mutual

/-- There is one demand for each occurrence of a variable. -/
theorem Ty.occurrences_demands? : ∀ {param arg : Ty} {ds : List Demand}, param.demands? arg = some ds →
    ds.map Demand.occurrence = param.occurrences
  | .var _, arg, ds, h => by
    rw [Ty.demands?] at h
    cases h
    rfl
  | .array element length, arg, ds, h => by
    cases arg with
    | array element' length' =>
      obtain ⟨es, es', hes, hes', rfl⟩ := bothDemands?_eq_some.mp h
      rw [List.map_append, Ty.occurrences_demands? hes, ArrayLength.occurrences_demands? hes', Ty.occurrences]
    | _ => simp [Ty.demands?] at h
  | .tuple elements, arg, ds, h => by
    cases arg with
    | tuple elements' =>
      rw [Ty.demands?] at h
      rw [occurrences_demandsOf? h, Ty.occurrences]
    | _ => simp [Ty.demands?] at h
  | .function params result, arg, ds, h => by
    cases arg with
    | function params' result' =>
      obtain ⟨es, es', hes, hes', rfl⟩ := bothDemands?_eq_some.mp h
      rw [List.map_append, occurrences_demandsOf? hes, Ty.occurrences_demands? hes', Ty.occurrences]
    | _ => simp [Ty.demands?] at h
  | .int, arg, ds, h | .frac, arg, ds, h | .bool, arg, ds, h | .str, arg, ds, h | .ptr, arg, ds, h
  | .none, arg, ds, h | .sizedInt _, arg, ds, h | .sizedFrac _, arg, ds, h => by
    rw [Ty.demands?] at h
    rw [occurrences_demandsOfSame? h, Ty.occurrences]

theorem occurrences_demandsOf? : ∀ {params args : List Ty} {ds : List Demand},
    demandsOf? params args = some ds → ds.map Demand.occurrence = occurrencesIn params
  | [], [], ds, h => by
    cases h
    rfl
  | param :: params, arg :: args, ds, h => by
    obtain ⟨es, es', hes, hes', rfl⟩ := bothDemands?_eq_some.mp h
    rw [List.map_append, Ty.occurrences_demands? hes, occurrences_demandsOf? hes', occurrencesIn]
  | [], _ :: _, ds, h | _ :: _, [], ds, h => by simp [demandsOf?] at h

end

/-! ### Meeting demands -/

/-- A match is possible, and an assignment meets its demands. -/
def Assignment.MeetsAll (ρ : Assignment) (ds : Option (List Demand)) : Prop :=
  ∃ es, ds = some es ∧ ∀ d ∈ es, ρ.Meets d

variable {ρ : Assignment}

theorem Assignment.meetsAll_both :
  ρ.MeetsAll (bothDemands? first second) ↔ ρ.MeetsAll first ∧ ρ.MeetsAll second
  := by
  cases first <;> cases second <;>
    simp [MeetsAll, bothDemands?, or_imp, forall_and]

theorem Assignment.meetsAll_singleton {name : String} {b : Binding} :
  ρ.MeetsAll (some [(name, b)]) ↔ ρ.Meets (name, b)
  := by simp [MeetsAll]

theorem Assignment.meetsAll_ite {p : Prop} [Decidable p] :
  ρ.MeetsAll (if p then some [] else none) ↔ p
  := by by_cases h : p <;> simp [MeetsAll, h]

theorem Assignment.not_meetsAll_none : ¬ ρ.MeetsAll none := by simp [MeetsAll]

theorem ArrayLength.assign_eq_iff :
  param.assign ρ = arg ↔ ρ.MeetsAll (param.demands? arg)
  := by
  cases param with
  | fixed n => exact Assignment.meetsAll_ite.symm
  | var name =>
    rw [ArrayLength.demands?, Assignment.meetsAll_singleton]
    simp [Assignment.Meets, Assignment.binding, Binding.kind, ArrayLength.assign]

mutual

/-- An assignment makes one type another exactly if it meets the demands of the match. -/
theorem Ty.assign_eq_iff : ∀ (param : Ty) {arg : Ty}, param.assign ρ = arg ↔ ρ.MeetsAll (param.demands? arg)
  | .var name, arg => by
    rw [Ty.demands?, Assignment.meetsAll_singleton]
    simp [Assignment.Meets, Assignment.binding, Binding.kind, Ty.assign]
  | .array element length, arg => by
    cases arg with
    | array element' length' =>
      rw [Ty.demands?, Assignment.meetsAll_both, ← Ty.assign_eq_iff element,
        ← ArrayLength.assign_eq_iff, Ty.assign, Ty.array.injEq]
    | _ => simp [Ty.demands?, Ty.assign, Assignment.not_meetsAll_none]
  | .tuple elements, arg => by
    cases arg with
    | tuple elements' =>
      rw [Ty.demands?, ← assignAll_eq_iff elements, Ty.assign, Ty.tuple.injEq]
    | _ => simp [Ty.demands?, Ty.assign, Assignment.not_meetsAll_none]
  | .function params result, arg => by
    cases arg with
    | function params' result' =>
      rw [Ty.demands?, Assignment.meetsAll_both, ← assignAll_eq_iff params,
        ← Ty.assign_eq_iff result, Ty.assign, Ty.function.injEq]
    | _ => simp [Ty.demands?, Ty.assign, Assignment.not_meetsAll_none]
  | .int, arg | .frac, arg | .bool, arg | .str, arg | .ptr, arg | .none, arg | .sizedInt _, arg
  | .sizedFrac _, arg => by
    rw [Ty.demands?, demandsOfSame?, Assignment.meetsAll_ite, Ty.assign]

theorem assignAll_eq_iff : ∀ (params : List Ty) {args : List Ty},
    assignAll ρ params = args ↔ ρ.MeetsAll (demandsOf? params args)
  | [], [] => by simp [assignAll, demandsOf?, Assignment.MeetsAll]
  | param :: params, arg :: args => by
    rw [demandsOf?, Assignment.meetsAll_both, ← Ty.assign_eq_iff param,
      ← assignAll_eq_iff params, assignAll, List.cons.injEq]
  | [], _ :: _ | _ :: _, [] => by simp [assignAll, demandsOf?, Assignment.not_meetsAll_none]

end

/-- An assignment gives each variable only one thing to stand for if its uses are all of one kind. -/
theorem Assignment.exists_choice (hkinds : HaveOneKind params) (ρ : Assignment)
    (hds : ds.map Demand.occurrence = occurrencesIn params) (hmeets : ∀ d ∈ ds, ρ.Meets d) :
  ∃ choice : String → Binding, ∀ d ∈ ds, choice d.1 = d.2
  := by
  refine ⟨fun name => ρ.binding name (if (name, .type) ∈ occurrencesIn params then .type else .length),
    fun d hd => ?_⟩
  have hoccurs : (d.1, d.2.kind) ∈ occurrencesIn params := hds ▸ List.mem_map_of_mem hd
  have hkind : (if (d.1, .type) ∈ occurrencesIn params then .type else .length) = d.2.kind := by
    split
    · rename_i htype
      exact hkinds _ htype _ hoccurs rfl
    · rename_i htype
      cases hkind : d.2.kind with
      | type => exact (htype (hkind ▸ hoccurs)).elim
      | length => rfl
  change ρ.binding d.1 (if (d.1, .type) ∈ occurrencesIn params then .type else .length) = d.2
  rw [hkind]
  exact hmeets d hd

/-! ## Demands as bindings -/

namespace Substitution

variable {name : String} {b : Binding}

/-- The bindings after an attempt that did not fail. -/
def Attempt.result? (attempt : Attempt) : Option Substitution :=
  match attempt.error with
  | some _ => none
  | none => some attempt.bindings

theorem Attempt.result?_andThen (first : Attempt) (second : Substitution → Attempt) :
  (first.andThen second).result? = first.result?.bind fun σ => (second σ).result?
  := by
  obtain ⟨σ, error⟩ := first
  cases error <;> rfl

theorem Attempt.result?_eq_some {attempt : Attempt} {σ : Substitution} :
  attempt.result? = some σ ↔ attempt.error = none ∧ attempt.bindings = σ
  := by
  obtain ⟨_, error⟩ := attempt
  cases error <;> simp [result?]

/-- A substitution with demands made bindings, unless one of them is on a variable bound to something else. -/
def bindAll? (σ : Substitution) (ds : List Demand) : Option Substitution :=
  ds.foldlM (fun σ d => (σ.bind d.1 d.2).result?) σ

theorem bindAll?_both (σ : Substitution) (first second : Option (List Demand)) :
  (bothDemands? first second).bind σ.bindAll? = (first.bind σ.bindAll?).bind fun σ => second.bind σ.bindAll?
  := by
  cases first with
  | none => rfl
  | some ds =>
    cases second with
    | none => simp [bothDemands?]
    | some es => simp [bothDemands?, bindAll?, List.foldlM_append]

theorem bindAll?_singleton (σ : Substitution) (name : String) (b : Binding) :
  σ.bindAll? [(name, b)] = (σ.bind name b).result?
  := by simp [bindAll?]

theorem bindAll?_ite (σ : Substitution) (p : Prop) [Decidable p] :
  Option.bind (if p then some [] else none) σ.bindAll? =
    Attempt.result? (if p then ⟨σ, none⟩ else ⟨σ, some .mismatch⟩)
  := by by_cases h : p <;> simp [h, bindAll?, Attempt.result?]

theorem result?_unifyLength (σ : Substitution) (param arg : ArrayLength) :
  (σ.unifyLength param arg).result? = (param.demands? arg).bind σ.bindAll?
  := by
  cases param with
  | fixed n => exact (σ.bindAll?_ite _).symm
  | var name => rw [unifyLength, ArrayLength.demands?, Option.bind_some, bindAll?_singleton]

mutual

/-- Unification makes the demands of a match bindings. -/
theorem result?_unify : ∀ (σ : Substitution) (param arg : Ty),
    (σ.unify param arg).result? = (param.demands? arg).bind σ.bindAll?
  | σ, .var name, arg => by rw [unify, Ty.demands?, Option.bind_some, bindAll?_singleton]
  | σ, .array element length, arg => by
    cases arg with
    | array element' length' =>
      simp only [unify, Ty.demands?, Attempt.result?_andThen, bindAll?_both, result?_unify _ element,
        result?_unifyLength]
    | _ => simp [unify, Ty.demands?, Attempt.result?]
  | σ, .tuple elements, arg => by
    cases arg with
    | tuple elements' =>
      by_cases hlength : elements.length = elements'.length
      · rw [unify, if_pos hlength, Ty.demands?, result?_unifyAll _ elements elements' hlength]
      · rw [unify, if_neg hlength, Ty.demands?, demandsOf?_eq_none hlength]
        rfl
    | _ => simp [unify, Ty.demands?, Attempt.result?]
  | σ, .function params result, arg => by
    cases arg with
    | function params' result' =>
      by_cases hlength : params.length = params'.length
      · simp only [unify, if_pos hlength, Ty.demands?, Attempt.result?_andThen, bindAll?_both,
          result?_unify _ result, result?_unifyAll _ params params' hlength]
      · rw [unify, if_neg hlength, Ty.demands?, bindAll?_both, demandsOf?_eq_none hlength]
        rfl
    | _ => simp [unify, Ty.demands?, Attempt.result?]
  | σ, .int, arg | σ, .frac, arg | σ, .bool, arg | σ, .str, arg | σ, .ptr, arg | σ, .none, arg
  | σ, .sizedInt _, arg | σ, .sizedFrac _, arg => by
    rw [unify, unifySame, Ty.demands?, demandsOfSame?, bindAll?_ite]

theorem result?_unifyAll : ∀ (σ : Substitution) (params args : List Ty), params.length = args.length →
    (σ.unifyAll params args).result? = (demandsOf? params args).bind σ.bindAll?
  | σ, [], [], _ => by simp [unifyAll, demandsOf?, bindAll?, Attempt.result?]
  | σ, param :: params, arg :: args, h => by
    have hlength : params.length = args.length := by simpa using h
    simp only [unifyAll, demandsOf?, Attempt.result?_andThen, bindAll?_both, result?_unify _ param,
      result?_unifyAll _ params args hlength]
  | σ, [], _ :: _, h | σ, _ :: _, [], h => by simp at h

end

/-! ### The bindings that demands make -/

/-- The bound variables, in the order in which they were bound. -/
def names (σ : Substitution) : List String := σ.bindings.map Prod.fst

theorem mem_names {σ : Substitution} : name ∈ σ.names ↔ (σ.get? name).isSome
  := by
  rw [← Option.ne_none_iff_isSome, get?, Ne, List.lookup_eq_none_iff]
  simp only [names, List.mem_map, bne_iff_ne, not_forall, not_not]
  exact exists_congr fun _ => ⟨fun h => ⟨h.1, h.2.symm⟩, fun ⟨h, h'⟩ => ⟨h, h'.symm⟩⟩

theorem names_append {σ : Substitution} :
  names ⟨σ.bindings ++ [(name, b)]⟩ = σ.names ++ [name]
  := by simp [names]

theorem get?_append {σ : Substitution} (h : σ.get? name = none) (other : String) :
  get? ⟨σ.bindings ++ [(name, b)]⟩ other = if other = name then some b else σ.get? other
  := by
  rw [get?, List.lookup_append, ← get?]
  by_cases hname : other = name
  · subst hname
    rw [h, if_pos rfl, Option.none_or, List.lookup_cons, beq_self_eq_true]
  · simp [hname, List.lookup_cons, beq_eq_false_iff_ne.mpr hname]

/-- The bindings are those that demands make, each in the place of the first demand on its variable. -/
structure Follows (σ : Substitution) (ds : List Demand) : Prop where
  get : ∀ d ∈ ds, σ.get? d.1 = some d.2
  names : σ.names = (ds.map Prod.fst).eraseDups
  nodup : σ.names.Nodup

theorem follows_empty : empty.Follows [] := ⟨fun _ h => (List.not_mem_nil h).elim, rfl, List.nodup_nil⟩

variable {σ τ : Substitution} {done ds : List Demand}

theorem Follows.mem_names (h : σ.Follows ds) : name ∈ σ.names ↔ name ∈ ds.map Prod.fst
  := by rw [h.names, List.mem_eraseDups]

theorem Follows.bind (h : σ.Follows done) (hbind : (σ.bind name b).result? = some τ) :
  τ.Follows (done ++ [(name, b)])
  := by
  have hnames : ((done ++ [(name, b)]).map Prod.fst).eraseDups
      = σ.names ++ ([name].removeAll (done.map Prod.fst)).eraseDups := by
    rw [List.map_append, List.eraseDups_append, ← h.names]
    rfl
  rw [Substitution.bind] at hbind
  cases hget : σ.get? name with
  | some bound =>
    have hmem : name ∈ done.map Prod.fst := h.mem_names.mp (Substitution.mem_names.mpr (by rw [hget]; rfl))
    simp only [hget] at hbind
    split at hbind
    · rename_i hbound
      obtain ⟨-, rfl⟩ := Attempt.result?_eq_some.mp hbind
      refine ⟨fun d hd => ?_, ?_, h.nodup⟩
      · obtain hd | hd := List.mem_append.mp hd
        · exact h.get d hd
        · rw [List.mem_singleton.mp hd, hget, hbound]
      · rw [hnames]
        simp [List.removeAll, hmem]
    · cases hbind
  | none =>
    have hmem : name ∉ σ.names := fun hmem => by simpa [hget] using Substitution.mem_names.mp hmem
    simp only [hget] at hbind
    obtain ⟨-, rfl⟩ := Attempt.result?_eq_some.mp hbind
    refine ⟨fun d hd => ?_, ?_, ?_⟩
    · rw [get?_append hget]
      obtain hd | hd := List.mem_append.mp hd
      · have hne : d.1 ≠ name := fun hname => by
          rw [← hname, h.get d hd] at hget
          cases hget
        rw [if_neg hne, h.get d hd]
      · rw [List.mem_singleton.mp hd, if_pos rfl]
    · rw [hnames, names_append]
      rw [h.mem_names] at hmem
      simp [List.removeAll, hmem, List.eraseDups_cons]
    · rw [names_append]
      exact List.nodup_append.mpr ⟨h.nodup, List.nodup_cons.mpr ⟨List.not_mem_nil, List.nodup_nil⟩, fun _ hx _ hy hxy =>
        hmem (List.mem_singleton.mp hy ▸ hxy ▸ hx)⟩

theorem Follows.bindAll (h : σ.Follows done) (hbind : σ.bindAll? ds = some τ) : τ.Follows (done ++ ds)
  := by
  induction ds generalizing σ done with
  | nil =>
    cases hbind
    rwa [List.append_nil]
  | cons d ds ih =>
    obtain ⟨σ', hfirst, hrest⟩ := Option.bind_eq_some_iff.mp hbind
    rw [List.append_cons]
    exact ih (h.bind hfirst) hrest

/-- Demands that one choice for every variable meets can be made bindings. -/
theorem bindAll?_isSome (choice : String → Binding) (hbound : ∀ name b, σ.get? name = some b → choice name = b)
  (hdemands : ∀ d ∈ ds, choice d.1 = d.2) :
  ∃ τ, σ.bindAll? ds = some τ
  := by
  induction ds generalizing σ with
  | nil => exact ⟨σ, rfl⟩
  | cons d ds ih =>
    have hd : choice d.1 = d.2 := hdemands d List.mem_cons_self
    have hds : ∀ e ∈ ds, choice e.1 = e.2 := fun e he => hdemands e (List.mem_cons_of_mem _ he)
    rw [bindAll?, List.foldlM_cons]
    cases hget : σ.get? d.1 with
    | some bound =>
      have hfirst : (σ.bind d.1 d.2).result? = some σ := by
        rw [Substitution.bind, hget]
        simp [← hd, hbound _ _ hget, Attempt.result?]
      simp only [hfirst, Option.bind_eq_bind, Option.bind_some]
      exact ih hbound hds
    | none =>
      have hfirst : (σ.bind d.1 d.2).result? = some ⟨σ.bindings ++ [(d.1, d.2)]⟩ := by
        rw [Substitution.bind, hget]
        rfl
      simp only [hfirst, Option.bind_eq_bind, Option.bind_some]
      refine ih (fun name b hb => ?_) hds
      rw [get?_append hget] at hb
      split at hb
      · rename_i hname
        cases hb
        rw [hname, hd]
      · exact hbound name b hb

/-! ## Substitutions as assignments -/

/-- The assignment that leaves unbound variables as they are. -/
def assignment (σ : Substitution) : Assignment where
  type name := σ.apply (.var name)
  length name := σ.applyLength (.var name)

theorem applyLength_eq_assign (σ : Substitution) (length : ArrayLength) :
  σ.applyLength length = length.assign σ.assignment
  := by cases length <;> rfl

mutual

theorem apply_eq_assign (σ : Substitution) : ∀ type : Ty, σ.apply type = type.assign σ.assignment
  | .array element length => by
    rw [apply, Ty.assign, σ.apply_eq_assign element, applyLength_eq_assign]
  | .tuple elements => by rw [apply, Ty.assign, σ.applyAll_eq_assignAll elements]
  | .function params result => by
    rw [apply, Ty.assign, σ.applyAll_eq_assignAll params, σ.apply_eq_assign result]
  | .var _ => rfl
  | .int | .frac | .bool | .str | .ptr | .none | .sizedInt _ | .sizedFrac _ => rfl

theorem applyAll_eq_assignAll (σ : Substitution) :
    ∀ types : List Ty, σ.applyAll types = assignAll σ.assignment types
  | [] => rfl
  | type :: types => by
    rw [applyAll, assignAll, σ.apply_eq_assign type, σ.applyAll_eq_assignAll types]

end

mutual

/-- A type without variables stays as it is. -/
theorem apply_of_isGeneric (σ : Substitution) : ∀ {type : Ty}, type.isGeneric = false → σ.apply type = type
  | .array element (.fixed n), h => by
    rw [apply, σ.apply_of_isGeneric (Bool.or_eq_false_iff.mp h).2, applyLength]
  | .array _ (.var _), h => by simp [Ty.isGeneric, ArrayLength.isGeneric] at h
  | .tuple elements, h => by rw [apply, σ.applyAll_of_anyGeneric h]
  | .function params result, h => by
    obtain ⟨hparams, hresult⟩ := Bool.or_eq_false_iff.mp h
    rw [apply, σ.applyAll_of_anyGeneric hparams, σ.apply_of_isGeneric hresult]
  | .var _, h => by simp [Ty.isGeneric] at h
  | .int, _ | .frac, _ | .bool, _ | .str, _ | .ptr, _ | .none, _ | .sizedInt _, _ | .sizedFrac _, _ => rfl

theorem applyAll_of_anyGeneric (σ : Substitution) :
    ∀ {types : List Ty}, anyGeneric types = false → σ.applyAll types = types
  | [], _ => rfl
  | type :: types, h => by
    obtain ⟨htype, htypes⟩ := Bool.or_eq_false_iff.mp h
    rw [applyAll, σ.apply_of_isGeneric htype, σ.applyAll_of_anyGeneric htypes]

end

theorem meets_of_get? {d : Demand} (h : σ.get? d.1 = some d.2) : σ.assignment.Meets d
  := by
  obtain ⟨name, value⟩ := d
  cases value <;> simp_all [Assignment.Meets, Assignment.binding, Binding.kind, assignment, apply, applyLength]

/-- Bindings that follow the demands of a match make the one type the other. -/
theorem Follows.apply_eq {param arg : Ty} (h : σ.Follows done) (hdemands : param.demands? arg = some ds)
  (hsub : ds ⊆ done) :
  σ.apply param = arg
  := by
  rw [apply_eq_assign, Ty.assign_eq_iff]
  exact ⟨ds, hdemands, fun d hd => meets_of_get? (h.get d (hsub hd))⟩

theorem assignAll_eq_iff_forall {pairs : List (Ty × Ty)} :
  assignAll ρ (pairs.map Prod.fst) = pairs.map Prod.snd ↔ ∀ pair ∈ pairs, pair.1.assign ρ = pair.2
  := by simp [assignAll_eq_map, List.map_inj_left]

/-- A variable is bound to something of the right kind. -/
def Binds (σ : Substitution) (x : String × VarKind) : Prop := ∃ b, σ.get? x.1 = some b ∧ b.kind = x.2

theorem Follows.binds (h : σ.Follows ds) (hds : demandsOf? params args = some ds) {x : String × VarKind}
    (hx : x ∈ occurrencesIn params) :
  σ.Binds x
  := by
  rw [← occurrences_demandsOf? hds] at hx
  obtain ⟨d, hd, rfl⟩ := List.mem_map.mp hx
  exact ⟨d.2, h.get d hd, rfl⟩

/--
Unification succeeds exactly if some assignment makes each parameter type its argument type. It then binds
the variables of the parameter types and no others, each once and in the order in which they first occur,
and applying the bindings makes each parameter type its argument type.
-/
theorem unifyAll_matches (pairs : List (Ty × Ty)) (hkinds : HaveOneKind (pairs.map Prod.fst)) :
  let attempt := empty.unifyAll (pairs.map Prod.fst) (pairs.map Prod.snd)
  (attempt.error = none ↔ ∃ ρ : Assignment, ∀ pair ∈ pairs, pair.1.assign ρ = pair.2) ∧
    (attempt.error = none →
      (∀ pair ∈ pairs, attempt.bindings.apply pair.1 = pair.2) ∧
      attempt.bindings.names = distinctVars (pairs.map Prod.fst) ∧
      attempt.bindings.names.Nodup ∧
      ∀ x ∈ occurrencesIn (pairs.map Prod.fst), attempt.bindings.Binds x)
  := by
  intro attempt
  have hresult : attempt.result? = (demandsOf? (pairs.map Prod.fst) (pairs.map Prod.snd)).bind empty.bindAll? :=
    result?_unifyAll _ _ _ (by simp)
  -- Success makes the demands bindings, and the bindings are an assignment that meets them.
  have hsound : attempt.error = none → ∃ ds, demandsOf? (pairs.map Prod.fst) (pairs.map Prod.snd) = some ds ∧
      attempt.bindings.Follows ds := fun herror => by
    rw [Attempt.result?_eq_some.mpr ⟨herror, rfl⟩] at hresult
    obtain ⟨ds, hds, hbind⟩ := Option.bind_eq_some_iff.mp hresult.symm
    exact ⟨ds, hds, follows_empty.bindAll hbind⟩
  have happly : attempt.error = none → ∀ pair ∈ pairs, attempt.bindings.apply pair.1 = pair.2 := fun herror => by
    obtain ⟨ds, hds, hfollows⟩ := hsound herror
    simp only [apply_eq_assign]
    exact assignAll_eq_iff_forall.mp
      ((assignAll_eq_iff _).mpr ⟨ds, hds, fun d hd => meets_of_get? (hfollows.get d hd)⟩)
  refine ⟨⟨fun herror => ⟨attempt.bindings.assignment, fun pair hpair => ?_⟩, fun ⟨ρ, hρ⟩ => ?_⟩,
    fun herror => ?_⟩
  · rw [← apply_eq_assign]
    exact happly herror pair hpair
  · obtain ⟨ds, hds, hmeets⟩ := (assignAll_eq_iff _).mp (assignAll_eq_iff_forall.mpr hρ)
    obtain ⟨choice, hchoice⟩ := Assignment.exists_choice hkinds ρ (occurrences_demandsOf? hds) hmeets
    obtain ⟨τ, hτ⟩ := bindAll?_isSome (σ := empty) choice (fun _ _ h => by cases h) hchoice
    rw [hds, Option.bind_some, hτ] at hresult
    exact (Attempt.result?_eq_some.mp hresult).1
  · obtain ⟨ds, hds, hfollows⟩ := hsound herror
    refine ⟨happly herror, ?_, hfollows.nodup, fun x hx => hfollows.binds hds hx⟩
    have hvars : ds.map Prod.fst = varOccurrencesIn (pairs.map Prod.fst) := by
      rw [← map_occurrencesIn, ← occurrences_demandsOf? hds, List.map_map]
      rfl
    rw [hfollows.names, hvars, distinctVars]

/-- The types of a call that passes on arrays whose types have variables of the same names. -/
def recursiveCall : List (Ty × Ty) :=
  [(.array (.var "t") (.var "n"), .array (.array (.var "t") (.var "n")) (.fixed 4)),
   (.tuple [.var "t", .var "u"], .tuple [.array (.var "t") (.var "n"), .var "t"]),
   (.function [.var "u"] (.array .int (.var "n")), .function [.var "t"] (.array .int (.fixed 4)))]

theorem recursiveCall_matches :
  HaveOneKind (recursiveCall.map Prod.fst) ∧
    let attempt := empty.unifyAll (recursiveCall.map Prod.fst) (recursiveCall.map Prod.snd)
    (∃ ρ : Assignment, ∀ pair ∈ recursiveCall, pair.1.assign ρ = pair.2) ∧
      (∀ pair ∈ recursiveCall, attempt.bindings.apply pair.1 = pair.2) ∧
      attempt.bindings.names = ["t", "n", "u"]
  := by
  have h := unifyAll_matches recursiveCall (by decide)
  have hsuccess := h.2 (by decide)
  exact ⟨by decide, h.1.mp (by decide), hsuccess.1, hsuccess.2.1.trans (by decide)⟩

end Substitution

end FormCompiler
