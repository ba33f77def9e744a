import FormCompiler.Proofs.Typing.Table

/-!
# Values of constants

In a unit without problems the value of a constant is the value of its initialiser over the integers, except
that `<<` drops the bits that 64 bits have no room for (`exact_parseUnit`). All integers in it are 64-bit
numbers. They are also values of the type of the constant, if no operator in an initialiser has a narrower
type: literals are compared with the range of their types, results of operators are not.
-/

namespace FormCompiler

variable {c : CheckedModule}

/-! ## Exact values -/

namespace ConstValue

/-- The value of an operation over the integers; only `<<` drops bits. -/
def unboundedInteger? (a b : Int) : BinaryOp → Option ConstValue
  | .add => some (int (a + b))
  | .sub => some (int (a - b))
  | .mul => some (int (a * b))
  | .div => if b = 0 then none else some (int (a.tdiv b))
  | .mod => if b = 0 then none else some (int (a.tmod b))
  | .shl => if 0 ≤ b then some (int ((a * 2 ^ b.toNat).bmod (2 ^ 64))) else none
  | .shr => if 0 ≤ b then some (int (a.fdiv (2 ^ b.toNat))) else none
  | op => integerBinary? a b op

/-- The value of a binary operation without bounds for integers. -/
def unboundedBinary? (op : BinaryOp) : ConstValue → ConstValue → Option ConstValue
  | int a, int b => unboundedInteger? a b op
  | a, b => binary? op a b

/-- The value of a unary operation without bounds for integers. -/
def unboundedUnary? : UnaryOp → ConstValue → Option ConstValue
  | .neg, int n => some (int (-n))
  | op, value => unary? op value

end ConstValue

mutual

/-- The value of an initialiser without bounds for integers, given the values of the constants before it. -/
def Expr.unbounded? (globals : String → Option ConstValue) : Expr → Option ConstValue
  | .node _ _ shape => shapeUnbounded? globals shape

/-- The value of a form without bounds for integers. -/
def shapeUnbounded? (globals : String → Option ConstValue) : Shape Expr → Option ConstValue
  | .literal value => some (.ofLiteral value)
  | .name name => globals name
  | .unary op operand => do ConstValue.unboundedUnary? op (← operand.unbounded? globals)
  | .binary op lhs rhs => do ConstValue.unboundedBinary? op (← lhs.unbounded? globals) (← rhs.unbounded? globals)
  | .array items => (unboundeds? globals items).map .array
  | .tuple items => (unboundeds? globals items).map .tuple
  | _ => none

/-- The values of several initialisers without bounds for integers. -/
def unboundeds? (globals : String → Option ConstValue) : List Expr → Option (List ConstValue)
  | [] => some []
  | e :: rest => do return (← e.unbounded? globals) :: (← unboundeds? globals rest)

end

namespace ConstValue

/-- Operations that have a value have the exact one. -/
theorem unboundedInteger?_of_integerBinary? {a b : Int} {op : BinaryOp} {value : ConstValue}
    (h : integerBinary? a b op = some value) :
  unboundedInteger? a b op = some value
  := by
  cases op with
  | add | sub | mul =>
    obtain ⟨n, hn, rfl⟩ := Option.map_eq_some_iff.mp h
    rw [unboundedInteger?, (Word.checked?_eq_some.mp hn).1]
  | div =>
    obtain ⟨n, hn, rfl⟩ := Option.map_eq_some_iff.mp h
    obtain ⟨rfl, hne, -⟩ := Word.div?_eq_some.mp hn
    rw [unboundedInteger?, if_neg hne]
  | mod =>
    obtain ⟨n, hn, rfl⟩ := Option.map_eq_some_iff.mp h
    obtain ⟨rfl, hne, -⟩ := Word.mod?_eq_some.mp hn
    rw [unboundedInteger?, if_neg hne]
  | shl =>
    obtain ⟨n, hn, rfl⟩ := Option.map_eq_some_iff.mp h
    obtain ⟨hnonneg, -, rfl⟩ := Word.shiftAmount?_eq_some.mp hn
    rw [unboundedInteger?, if_pos hnonneg, Word.shiftLeft_eq]
  | shr =>
    obtain ⟨n, hn, rfl⟩ := Option.map_eq_some_iff.mp h
    obtain ⟨hnonneg, -, rfl⟩ := Word.shiftAmount?_eq_some.mp hn
    rw [unboundedInteger?, if_pos hnonneg, Word.shiftRight_eq]
  | _ => exact h

theorem unboundedBinary?_of_binary? {op : BinaryOp} {left right value : ConstValue}
    (h : binary? op left right = some value) :
  unboundedBinary? op left right = some value
  := by
  unfold unboundedBinary?
  split
  · exact unboundedInteger?_of_integerBinary? h
  · exact h

theorem unboundedUnary?_of_unary? {op : UnaryOp} {operand value : ConstValue} (h : unary? op operand = some value) :
  unboundedUnary? op operand = some value
  := by
  unfold unboundedUnary?
  split
  · obtain ⟨n, hn, rfl⟩ := Option.map_eq_some_iff.mp h
    rw [(Word.checked?_eq_some.mp hn).1]
  · exact h

end ConstValue

section

variable {globals : String → Option ConstValue}

mutual

/-- An initialiser that has a value has the exact one. -/
theorem Expr.unbounded?_of_constant : ∀ (e : Expr) {value : ConstValue}, e.constant globals = .ok value →
    e.unbounded? globals = some value
  | .node _ _ shape, _, h => by
    rw [Expr.constant] at h
    rw [Expr.unbounded?]
    exact shapeUnbounded?_of_constant shape h

theorem shapeUnbounded?_of_constant : ∀ (shape : Shape Expr) {value : ConstValue},
    shapeConstant globals shape = .ok value → shapeUnbounded? globals shape = some value
  | shape, _, h => by
    cases shape with
    | literal _ =>
      rw [shapeConstant] at h
      rw [shapeUnbounded?, Except.ok.inj h]
    | name name =>
      rw [shapeConstant] at h
      rw [shapeUnbounded?]
      split at h
      · next hname => rw [hname, Except.ok.inj h]
      · cases h
    | unary op operand =>
      rw [shapeConstant] at h
      obtain ⟨value, hoperand, h⟩ := Flow.bind_eq_ok.mp h
      rw [shapeUnbounded?, operand.unbounded?_of_constant hoperand]
      split at h
      · next hvalue => exact Except.ok.inj h ▸ ConstValue.unboundedUnary?_of_unary? hvalue
      · cases h
    | binary op lhs rhs =>
      rw [shapeConstant] at h
      obtain ⟨left, hleft, h⟩ := Flow.bind_eq_ok.mp h
      obtain ⟨right, hright, h⟩ := Flow.bind_eq_ok.mp h
      rw [shapeUnbounded?, lhs.unbounded?_of_constant hleft, rhs.unbounded?_of_constant hright]
      split at h
      · next hvalue => exact Except.ok.inj h ▸ ConstValue.unboundedBinary?_of_binary? hvalue
      · cases h
    | array items | tuple items =>
      rw [shapeConstant] at h
      obtain ⟨values, hvalues, h⟩ := Flow.bind_eq_ok.mp h
      rw [shapeUnbounded?, unboundeds?_of_constants items hvalues, ← Except.ok.inj h]
      rfl
    | _ =>
      simp [shapeConstant] at h

theorem unboundeds?_of_constants : ∀ (items : List Expr) {values : List ConstValue},
    constants globals items = .ok values → unboundeds? globals items = some values
  | [], _, h => by
    rw [constants] at h
    rw [unboundeds?, Except.ok.inj h]
  | e :: rest, _, h => by
    rw [constants] at h
    obtain ⟨value, hvalue, h⟩ := Flow.bind_eq_ok.mp h
    obtain ⟨values, hvalues, h⟩ := Flow.bind_eq_ok.mp h
    rw [unboundeds?, e.unbounded?_of_constant hvalue, unboundeds?_of_constants rest hvalues, ← Except.ok.inj h]
    rfl

end

end

/-! ## Values of types -/

mutual

/-- A value is of a type, and the integers in it are in the ranges of their types. -/
def ConstValue.Inhabits (range : Ty → Int → Prop) : ConstValue → Ty → Prop
  | .int n, type => type.isInteger = true ∧ range type n
  | .frac _, type => type.isFraction = true
  | .bool _, type => type = .bool
  | .str _, type => type = .str
  | .array items, type => ∃ element, type = .array element (.fixed items.length)
    ∧ AllInhabit range items (List.replicate items.length element)
  | .tuple items, type => ∃ types, type = .tuple types ∧ AllInhabit range items types

/-- Values are of types, one by one. -/
def AllInhabit (range : Ty → Int → Prop) : List ConstValue → List Ty → Prop
  | [], types => types = []
  | value :: values, types =>
    ∃ type rest, types = type :: rest ∧ value.Inhabits range type ∧ AllInhabit range values rest

end

theorem AllInhabit.length {range : Ty → Int → Prop} : ∀ {values : List ConstValue} {types : List Ty},
    AllInhabit range values types → values.length = types.length
  | [], _, h => by
    rw [AllInhabit] at h
    rw [h]
    rfl
  | value :: values, _, h => by
    rw [AllInhabit] at h
    obtain ⟨type, rest, rfl, -, hrest⟩ := h
    rw [List.length_cons, List.length_cons, hrest.length]

/-! ## Ranges of operations -/

namespace ConstValue

variable {op : BinaryOp}

/-- Results of operations on 64-bit numbers are 64-bit numbers. -/
theorem isInt64_of_integerBinary? {a b n : Int} (ha : isInt64 a = true) (hb : isInt64 b = true)
    (h : integerBinary? a b op = some (.int n)) :
  isInt64 n = true
  := by
  have hmap : ∀ {x : Option Int}, x.map int = some (.int n) → x = some n := by
    intro x hx
    obtain ⟨m, hm, hsame⟩ := Option.map_eq_some_iff.mp hx
    rw [hm, ConstValue.int.inj hsame]
  cases op with
  | add | sub | mul =>
    obtain ⟨rfl, hrange⟩ := Word.checked?_eq_some.mp (hmap h)
    exact hrange
  | div =>
    obtain ⟨rfl, -, hrange⟩ := Word.div?_eq_some.mp (hmap h)
    exact hrange
  | mod =>
    obtain ⟨rfl, hne, -⟩ := Word.mod?_eq_some.mp (hmap h)
    exact Word.isInt64_tmod a hb hne
  | bitAnd | bitOr | bitXor =>
    rw [← ConstValue.int.inj (Option.some.inj h)]
    exact isInt64_toInt _
  | shl =>
    obtain ⟨amount, -, hn⟩ := Option.map_eq_some_iff.mp h
    rw [← ConstValue.int.inj hn]
    exact isInt64_toInt _
  | shr =>
    obtain ⟨amount, -, hn⟩ := Option.map_eq_some_iff.mp h
    rw [← ConstValue.int.inj hn]
    exact Word.isInt64_shiftRight ha amount
  | _ => cases h

variable {range : Ty → Int → Prop} {type : Ty} {value : ConstValue}

theorem inhabits_unary {op : UnaryOp} {operand : ConstValue}
    (hwide : type.isInteger = true → ∀ n, isInt64 n = true → range type n)
    (hoperand : operand.Inhabits range type) (h : unary? op operand = some value) :
  value.Inhabits range type
  := by
  unfold unary? at h
  split at h
  · obtain ⟨n, hn, rfl⟩ := Option.map_eq_some_iff.mp h
    obtain ⟨rfl, hrange⟩ := Word.checked?_eq_some.mp hn
    rw [Inhabits] at hoperand ⊢
    exact ⟨hoperand.1, hwide hoperand.1 _ hrange⟩
  · obtain rfl := Option.some.inj h
    rw [Inhabits] at hoperand ⊢
    exact hoperand
  · obtain rfl := Option.some.inj h
    rw [Inhabits] at hoperand ⊢
    exact hoperand
  · obtain rfl := Option.some.inj h
    rw [Inhabits] at hoperand ⊢
    exact ⟨hoperand.1, hwide hoperand.1 _ (isInt64_toInt _)⟩
  · cases h

theorem inhabits_integerBinary {a b : Int} (hrange : ∀ n, range type n → isInt64 n = true)
    (hwide : op.isComparison = false → ∀ n, isInt64 n = true → range type n) (htype : type.isInteger = true)
    (ha : range type a) (hb : range type b) (h : integerBinary? a b op = some value) :
  value.Inhabits range (if op.isComparison then .bool else type)
  := by
  have hint : op.isComparison = false → ∀ n, value = .int n →
      value.Inhabits range (if op.isComparison then .bool else type) := by
    rintro hop n rfl
    rw [hop, if_neg Bool.false_ne_true, Inhabits]
    exact ⟨htype, hwide hop n (isInt64_of_integerBinary? (hrange a ha) (hrange b hb) h)⟩
  cases op with
  | eq | ne | lt | le | gt | ge =>
    obtain rfl := Option.some.inj h
    simp [BinaryOp.isComparison, Inhabits]
  | and | or => cases h
  | bitAnd | bitOr | bitXor => exact hint rfl _ (Option.some.inj h).symm
  | _ =>
    obtain ⟨n, -, hn⟩ := Option.map_eq_some_iff.mp h
    exact hint rfl _ hn.symm

theorem inhabits_fractionBinary {a b : UInt64} (htype : type.isFraction = true)
    (h : fractionBinary? a b op = some value) :
  value.Inhabits range (if op.isComparison then .bool else type)
  := by
  cases op with
  | eq | ne | lt | le | gt | ge =>
    obtain rfl := Option.some.inj h
    simp [BinaryOp.isComparison, Inhabits]
  | add | sub | mul =>
    obtain rfl := Option.some.inj h
    simpa [BinaryOp.isComparison, Inhabits] using htype
  | div =>
    rw [fractionBinary?] at h
    split at h
    · cases h
    · obtain rfl := Option.some.inj h
      simpa [BinaryOp.isComparison, Inhabits] using htype
  | _ => cases h

theorem inhabits_binary {left right : ConstValue} (hrange : ∀ n, range type n → isInt64 n = true)
    (hwide : op.isComparison = false → type.isInteger = true → ∀ n, isInt64 n = true → range type n)
    (hleft : left.Inhabits range type) (hright : right.Inhabits range type) (h : binary? op left right = some value) :
  value.Inhabits range (if op.isComparison then .bool else type)
  := by
  unfold binary? at h
  split at h
  · rw [Inhabits] at hleft hright
    exact inhabits_integerBinary hrange (fun hop => hwide hop hleft.1) hleft.1 hleft.2 hright.2 h
  · rw [Inhabits] at hleft
    exact inhabits_fractionBinary hleft h
  · rw [Inhabits] at hleft
    subst hleft
    cases op <;> cases h <;> simp [BinaryOp.isComparison, Inhabits]
  · cases op <;> cases h <;> simp [BinaryOp.isComparison, Inhabits]
  · cases h

end ConstValue

/-! ## Initialisers -/

/-- An expression is an operation. -/
def Expr.isOperation (e : Expr) : Bool :=
  match e.shape with
  | .unary _ _ | .binary _ _ _ => true
  | _ => false

/-- Literals and results of operations are in the ranges of the types that are recorded for them. -/
structure Expr.Ranges (c : CheckedModule) (range : Ty → Int → Prop) (e : Expr) : Prop where
  literal : ∀ n, e.shape = .literal (.int n) → ∀ type, type.fitsLiteral n = true → range type n
  operation : e.isOperation = true → ∀ type, c.type? e.id = some type → type.isInteger = true →
    ∀ n, isInt64 n = true → range type n

/-- The values of constants are of the types of the constants. -/
def CheckedModule.Valued (c : CheckedModule) (range : Ty → Int → Prop) (globals : String → Option ConstValue) :
    Prop :=
  ∀ name value g, globals name = some value → c.global? name = some g → value.Inhabits range g.type

section

variable {c : CheckedModule} {range : Ty → Int → Prop} {globals : String → Option ConstValue} {result : Ty}

mutual

/-- The value of a typed initialiser is of its type. -/
theorem HasType.inhabits (hrange : ∀ type n, range type n → isInt64 n = true) (hvalued : c.Valued range globals) :
    ∀ (e : Expr) {value : ConstValue} {type : Ty} {scope : TypeScope}, (∀ part ∈ e.preorder, part.Ranges c range) →
      HasType c result [] e type scope → e.constant globals = .ok value → value.Inhabits range type
  | .node id span shape, _, _, _, hranges, h, hvalue => by
    rw [HasType] at h
    rw [Expr.constant] at hvalue
    rw [Expr.preorder, List.forall_mem_cons] at hranges
    exact FormHasType.inhabits hrange hvalued id span shape h.1 hranges.1 hranges.2 h.2 hvalue

theorem FormHasType.inhabits (hrange : ∀ type n, range type n → isInt64 n = true)
    (hvalued : c.Valued range globals) (id : Nat) (span : Span) :
    ∀ (shape : Shape Expr) {value : ConstValue} {type : Ty} {scope : TypeScope}, c.type? id = some type →
      (Expr.node id span shape).Ranges c range → (∀ part ∈ shapePreorder shape, part.Ranges c range) →
      FormHasType c result [] id shape type scope → shapeConstant globals shape = .ok value →
      value.Inhabits range type
  | shape, _, _, _, hid, hself, hranges, h, hvalue => by
    cases shape with
    | literal literal =>
      rw [FormHasType] at h
      rw [shapeConstant] at hvalue
      obtain rfl := Except.ok.inj hvalue
      cases literal with
      | int n =>
        rw [ConstValue.ofLiteral, ConstValue.Inhabits]
        exact ⟨Ty.isInteger_of_fitsLiteral h.1, hself.literal n rfl _ h.1⟩
      | _ =>
        rw [ConstValue.ofLiteral, ConstValue.Inhabits]
        exact h.1
    | name name =>
      rw [FormHasType] at h
      rw [shapeConstant] at hvalue
      obtain ⟨g, hg, rfl⟩ := h.2.1 rfl
      split at hvalue
      · next hname => exact hvalued name _ g (Except.ok.inj hvalue ▸ hname) hg
      · cases hvalue
    | unary op operand =>
      rw [FormHasType] at h
      rw [shapeConstant] at hvalue
      rw [shapePreorder] at hranges
      obtain ⟨inner, hinner, hvalue⟩ := Flow.bind_eq_ok.mp hvalue
      have hoperand := HasType.inhabits hrange hvalued operand hranges h.1 hinner
      have hwide := hself.operation rfl _ hid
      split at hvalue
      · next hunary => exact Except.ok.inj hvalue ▸ ConstValue.inhabits_unary hwide hoperand hunary
      · cases hvalue
    | binary op lhs rhs =>
      rw [FormHasType] at h
      rw [shapeConstant] at hvalue
      rw [shapePreorder, List.forall_mem_append] at hranges
      obtain ⟨left, hleft, hvalue⟩ := Flow.bind_eq_ok.mp hvalue
      obtain ⟨right, hright, hvalue⟩ := Flow.bind_eq_ok.mp hvalue
      obtain ⟨operand, middle, hlhs, hrhs, -, rfl⟩ := h
      have hleft' := HasType.inhabits hrange hvalued lhs hranges.1 hlhs hleft
      rw [hlhs.scope_of_constant lhs hleft] at hrhs
      have hright' := HasType.inhabits hrange hvalued rhs hranges.2 hrhs hright
      have hoperation := hself.operation rfl _ hid
      split at hvalue
      · next hbinary =>
        refine Except.ok.inj hvalue ▸ ConstValue.inhabits_binary (hrange operand) (fun hop => ?_) hleft' hright' hbinary
        rw [hop, if_neg Bool.false_ne_true] at hoperation
        exact hoperation
      · cases hvalue
    | array items =>
      rw [FormHasType] at h
      rw [shapeConstant] at hvalue
      rw [shapePreorder] at hranges
      obtain ⟨values, hvalues, hvalue⟩ := Flow.bind_eq_ok.mp hvalue
      obtain ⟨element, rfl, hitems⟩ := h
      obtain rfl := Except.ok.inj hvalue
      have hall := HaveTypes.inhabit hrange hvalued items hranges hitems hvalues
      have hlength : values.length = items.length := hall.length.trans List.length_replicate
      rw [ConstValue.Inhabits, hlength]
      exact ⟨element, rfl, hall⟩
    | tuple items =>
      rw [FormHasType] at h
      rw [shapeConstant] at hvalue
      rw [shapePreorder] at hranges
      obtain ⟨values, hvalues, hvalue⟩ := Flow.bind_eq_ok.mp hvalue
      obtain ⟨types, rfl, hitems⟩ := h
      obtain rfl := Except.ok.inj hvalue
      rw [ConstValue.Inhabits]
      exact ⟨types, rfl, HaveTypes.inhabit hrange hvalued items hranges hitems hvalues⟩
    | _ =>
      simp [shapeConstant] at hvalue

theorem HaveTypes.inhabit (hrange : ∀ type n, range type n → isInt64 n = true)
    (hvalued : c.Valued range globals) : ∀ (items : List Expr) {values : List ConstValue} {types : List Ty}
      {scope : TypeScope}, (∀ part ∈ preorders items, part.Ranges c range) → HaveTypes c result [] items types scope →
      constants globals items = .ok values → AllInhabit range values types
  | [], _, _, _, _, h, hvalues => by
    rw [HaveTypes] at h
    rw [constants] at hvalues
    obtain rfl := Except.ok.inj hvalues
    rw [AllInhabit]
    exact h.1
  | e :: rest, _, _, _, hranges, h, hvalues => by
    rw [HaveTypes] at h
    rw [constants] at hvalues
    rw [preorders, List.forall_mem_append] at hranges
    obtain ⟨value, hvalue, hvalues⟩ := Flow.bind_eq_ok.mp hvalues
    obtain ⟨values, hrest, hvalues⟩ := Flow.bind_eq_ok.mp hvalues
    obtain ⟨type, types, middle, rfl, he, hitems⟩ := h
    rw [he.scope_of_constant e hvalue] at hitems
    obtain rfl := Except.ok.inj hvalues
    rw [AllInhabit]
    exact ⟨type, types, rfl, HasType.inhabits hrange hvalued e hranges.1 he hvalue,
      HaveTypes.inhabit hrange hvalued rest hranges.2 hitems hrest⟩

end

end

/-- All literals and results of operations are 64-bit numbers. -/
theorem Expr.ranges_word {e : Expr} (h : e.shape.IsParsed) :
  e.Ranges c fun _ n => isInt64 n = true
  := by
  refine ⟨fun n hshape _ _ => ?_, fun _ _ _ _ _ hn => hn⟩
  rw [hshape] at h
  exact h

/-- Literals, and results of operations that are of no narrow type, are values of their types. -/
theorem Expr.ranges_represents {e : Expr} (h : e.shape.IsParsed)
    (hwide : e.isOperation = true → ∀ bits, c.type? e.id ≠ some (.sizedInt bits)) :
  e.Ranges c fun type n => isInt64 n = true ∧ type.Represents n
  := by
  refine ⟨fun n hshape type hfits => ?_, fun hoperation type htype hinteger n hn => ⟨hn, ?_⟩⟩
  · rw [hshape] at h
    exact ⟨h, Ty.represents_of_fitsLiteral hfits h⟩
  · cases type with
    | int => exact isInt64_iff.mp hn
    | sizedInt bits => exact absurd htype (hwide hoperation bits)
    | _ => cases hinteger

/-! ## Units -/

theorem constantValue?_append (before : List GlobalConst) (g : GlobalConst) (name : String) :
  constantValue? (before ++ [g]) name
    = (constantValue? before name).or (if g.name = name then some g.value else none)
  := by
  rw [constantValue?, List.find?_append, constantValue?]
  by_cases hname : g.name = name <;> simp [hname]

/-- Constants have values of their types if all of their initialisers stay in the ranges of their types. -/
theorem CheckedModule.Holds.valued {items : List Item} {range : Ty → Int → Prop} (h : c.Holds items)
    (hrange : ∀ type n, range type n → isInt64 n = true)
    (hranges : ∀ decl, Item.const decl ∈ items → ∀ part ∈ decl.init.preorder, part.Ranges c range)
    {before after : List GlobalConst} (hsplit : c.globals = before ++ after) :
  c.Valued range (constantValue? before)
  := by
  -- a constant is of its type since those before it are of theirs
  induction before using List.reverseRecOn generalizing after with
  | nil => simp [Valued, constantValue?]
  | append_singleton before g ih =>
    rw [List.append_assoc, List.singleton_append] at hsplit
    have hbefore := ih hsplit
    intro name value g' hvalue hg'
    rw [constantValue?_append] at hvalue
    cases hfound : constantValue? before name with
    | some found =>
      rw [hfound, Option.some_or] at hvalue
      exact hbefore name value g' (hfound.trans hvalue) hg'
    | none =>
      rw [hfound, Option.none_or] at hvalue
      obtain ⟨decl, hdecl, hcomes⟩ := h.comes before g after hsplit
      split at hvalue
      · next hname =>
        obtain rfl := Option.some.inj hvalue
        have hsame : g' = g := by
          rw [global?, hsplit, List.find?_append, Option.map_eq_none_iff.mp hfound] at hg'
          simpa [hname, eq_comm] using hg'
        rw [hsame]
        exact HasType.inhabits hrange hbefore decl.init (hranges decl hdecl) hcomes.typed hcomes.value
      · cases hvalue

/-- No operation in the initialiser of a constant is of a narrow type. -/
def Module.HasWideOperations (m : Module) (c : CheckedModule) : Prop :=
  ∀ decl, Item.const decl ∈ m.flatItems → ∀ e ∈ decl.init.preorder, e.isOperation = true →
    ∀ bits, c.type? e.id ≠ some (.sizedInt bits)

/--
In a parsed unit without problems a constant has the value of its initialiser without bounds for integers, of
which only `<<` drops bits, and the value is of the type of the constant: its integers are 64-bit numbers, and
they are in the ranges of their types as well if no operation is of a narrow type.
-/
theorem exact_parseUnit (source : String) (imports : List FunctionSig)
    (hclean : (checkModule (parseUnit source).module imports).problems = []) (before : List GlobalConst)
    (g : GlobalConst) (after : List GlobalConst)
    (hsplit : (checkModule (parseUnit source).module imports).globals = before ++ g :: after) :
  (∃ decl, Item.const decl ∈ (parseUnit source).module.flatItems
      ∧ g.Comes (checkModule (parseUnit source).module imports) before decl
      ∧ decl.init.unbounded? (constantValue? before) = some g.value)
    ∧ g.value.Inhabits (fun _ n => isInt64 n = true) g.type
    ∧ ((parseUnit source).module.HasWideOperations (checkModule (parseUnit source).module imports) →
      g.value.Inhabits (fun type n => isInt64 n = true ∧ type.Represents n) g.type)
  := by
  have hnumbered := numbered_parseUnit source
  generalize (parseUnit source).module = m at hclean hnumbered hsplit ⊢
  obtain ⟨-, hholds, -⟩ := sound_checkModule hnumbered hclean
  generalize checkModule m imports = c at hholds hsplit ⊢
  obtain ⟨decl, hdecl, hcomes⟩ := hholds.comes before g after hsplit
  have hshapes : ∀ decl, Item.const decl ∈ m.flatItems → ∀ part ∈ decl.init.preorder, part.shape.IsParsed := by
    intro decl hdecl part hpart
    exact hnumbered.shapes part (List.mem_flatMap.mpr ⟨_, hdecl, Item.parts_const decl ▸ hpart⟩)
  have hinhabits : ∀ {range : Ty → Int → Prop}, (∀ type n, range type n → isInt64 n = true) →
      (∀ decl, Item.const decl ∈ m.flatItems → ∀ part ∈ decl.init.preorder, part.Ranges c range) →
      g.value.Inhabits range g.type := by
    intro range hrange hranges
    exact HasType.inhabits hrange (hholds.valued hrange hranges hsplit) decl.init (hranges decl hdecl)
      hcomes.typed hcomes.value
  refine ⟨⟨decl, hdecl, hcomes, decl.init.unbounded?_of_constant hcomes.value⟩, ?_, fun hwide => ?_⟩
  · exact hinhabits (fun _ _ hn => hn) fun decl hdecl part hpart => Expr.ranges_word (hshapes decl hdecl part hpart)
  · exact hinhabits (fun _ _ hn => hn.1) fun decl hdecl part hpart =>
      Expr.ranges_represents (hshapes decl hdecl part hpart) (hwide decl hdecl part hpart)

/-- The integer that a value is. -/
def ConstValue.int? : ConstValue → Option Int
  | .int n => some n
  | _ => none

/-- A constant that is computed from another one, and bits of which are dropped on the way. -/
def dropsBits : String := "[const third (7 / -2)] [const far ((third << 62) >> 60)]"

theorem exact_dropsBits :
  (checkModule (parseUnit dropsBits).module []).problems = []
    ∧ ∃ before g after, (checkModule (parseUnit dropsBits).module []).globals = before ++ g :: after
      ∧ (g.name, g.value.int?) = ("far", some 4)
      ∧ g.value.Inhabits (fun type n => isInt64 n = true ∧ type.Represents n) g.type
      ∧ ∃ decl, Item.const decl ∈ (parseUnit dropsBits).module.flatItems
        ∧ decl.init.unbounded? (constantValue? before) = some g.value
  := by
  have hclean : (checkModule (parseUnit dropsBits).module []).problems = [] := by decide +kernel
  have hlast : (checkModule (parseUnit dropsBits).module []).globals[1]?.map (fun g => (g.name, g.value.int?))
      = some ("far", some 4) := by decide +kernel
  have hints : ∀ item ∈ (parseUnit dropsBits).module.flatItems, ∀ e ∈ item.parts,
      (checkModule (parseUnit dropsBits).module []).type? e.id = some .int := by decide +kernel
  have hwide : (parseUnit dropsBits).module.HasWideOperations (checkModule (parseUnit dropsBits).module []) := by
    intro decl hdecl e he _ bits
    simp [hints _ hdecl e (Item.parts_const decl ▸ he)]
  obtain ⟨g, hg, hvalue⟩ := Option.map_eq_some_iff.mp hlast
  obtain ⟨before, after, hsplit⟩ := List.append_of_mem (List.mem_of_getElem? hg)
  obtain ⟨⟨decl, hdecl, -, hexact⟩, -, hinhabits⟩ := exact_parseUnit dropsBits [] hclean before g after hsplit
  exact ⟨hclean, before, g, after, hsplit, hvalue, hinhabits hwide, decl, hdecl, hexact⟩

/-- A constant that is too large for its type. -/
def shiftsOut : String := "[const x (1 << 63)]"

/-- The constant holds another number, which is what the bits that are left denote. -/
theorem inexact_shiftsOut :
  (checkModule (parseUnit shiftsOut).module []).problems = []
    ∧ (checkModule (parseUnit shiftsOut).module []).globals.map (fun g => (g.type, g.value.int?))
      = [(.int, some (-2 ^ 63))]
    ∧ ¬ Ty.int.Represents (1 * 2 ^ 63)
  := by
  refine ⟨by decide +kernel, by decide +kernel, ?_⟩
  rw [Ty.Represents]
  norm_num

end FormCompiler
