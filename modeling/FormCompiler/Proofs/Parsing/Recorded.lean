import FormCompiler.Parsing.Item
import FormCompiler.Proofs.Action.Ensures
import FormCompiler.Proofs.Parsing.Tokens

/-!
# Errors in forms are recorded

A parser that fails at an invalid token fails with an error that is not recorded, since the lexer has reported the
token already. If all tokens are valid, there are no such errors: a parser of forms is `Open`, so what it fails with
is recorded, and it does not touch the errors before. Then every form outside of expressions becomes an item, or
there are errors (`records_parseUnit`): no form is left out silently.
-/

namespace FormCompiler

variable {α β : Type}
variable {token closing : Token} {parts : List Part}

/-! ## Parsers -/

/-- A parser leaves the recorded errors as they are, and what it fails with will be recorded. -/
def Open (p : Parser α) (good : α → Prop) : Prop :=
  ∀ s, (p s).2.errors = s.errors ∧ match (p s).1 with
    | .ok a => good a
    | .error e => e.isLexical = false

namespace Open

variable {p : Parser α} {good : α → Prop}

theorem bind {k : α → Parser β} {good' : β → Prop} (hp : Open p good) (hk : ∀ a, good a → Open (k a) good') :
  Open (p >>= k) good'
  := by
  intro s
  have hrun := hp s
  rw [Ensures.bind_apply]
  generalize p s = r at hrun ⊢
  obtain ⟨e | a, s'⟩ := r
  · exact hrun
  · obtain ⟨hsame, hgood⟩ := hrun
    obtain ⟨hsame', hgood'⟩ := hk a hgood s'
    exact ⟨hsame'.trans hsame, hgood'⟩

theorem pure {a : α} (h : good a) :
  Open (pure a) good
  := fun _ => ⟨rfl, h⟩

theorem throw {e : ParseError} (h : e.isLexical = false) :
  Open (throw e) good
  := fun _ => ⟨rfl, h⟩

theorem mono {good' : α → Prop} (hp : Open p good) (h : ∀ a, good a → good' a) :
  Open p good'
  := by
  have hbind := hp.bind (k := Pure.pure) fun a ha => pure (h a ha)
  rwa [bind_pure] at hbind

end Open

/-- A parser of any value that leaves the recorded errors as they are, and fails with errors that will be. -/
abbrev IsOpen (p : Parser α) : Prop := Open p fun _ => True

theorem isOpen_makeExpr (span : Span) (shape : Shape Expr) :
  IsOpen (makeExpr span shape)
  := fun _ => ⟨rfl, trivial⟩

theorem isOpen_hiddenName :
  IsOpen hiddenName
  := fun _ => ⟨rfl, trivial⟩

/-! ## Parts -/

/-- A token that the lexer has no error for. -/
def Token.IsValid (token : Token) : Prop := token.kind ≠ .invalid

theorem Token.IsValid.isLexical_unexpected (h : token.IsValid) (expected : String) :
  (ParseError.unexpected token expected).isLexical = false
  := by
  unfold ParseError.unexpected
  split
  · next hinvalid => exact absurd hinvalid h
  · rfl

/-- All tokens of a part are valid, and its expression is parsed openly. -/
inductive Part.Valid : Part → Prop
  | atom {token : Token} {expr : Parser Expr} (htoken : token.IsValid) (h : IsOpen expr) : Valid (.atom token expr)
  | group {opening closing : Token} {parts : List Part} {expr : Parser Expr} (hopening : opening.IsValid)
    (hparts : ∀ part ∈ parts, Valid part) (hclosing : closing.IsValid) (h : IsOpen expr) :
    Valid (.group opening parts closing expr)

/-- The parts that remain are valid, and so is the token that ends the group. -/
structure Remaining.Valid (r : Remaining) : Prop where
  parts : ∀ part ∈ r.parts, part.Valid
  closing : r.closing.IsValid

namespace Part.Valid

variable {part : Part}

theorem expr (h : part.Valid) :
  IsOpen part.expr
  := by
  cases h with
  | atom _ h => exact h
  | group _ _ _ h => exact h

theorem lead (h : part.Valid) :
  part.lead.IsValid
  := by
  cases h with
  | atom htoken _ => exact htoken
  | group hopening _ _ _ => exact hopening

theorem remaining {opening closing : Token} {parts : List Part} {expr : Parser Expr}
    (h : Part.Valid (.group opening parts closing expr)) :
  Remaining.Valid ⟨parts, closing⟩
  := by
  cases h with
  | group _ hparts hclosing _ => exact ⟨hparts, hclosing⟩

end Part.Valid

/-- No parts remain. -/
theorem Remaining.Valid.done {r : Remaining} (h : r.Valid) :
  Remaining.Valid { r with parts := [] }
  := ⟨List.forall_mem_nil _, h.closing⟩

/-- A parser of valid parts leaves the recorded errors as they are, and fails with errors that will be. -/
def Follows (p : FormParser α) : Prop := ∀ r, r.Valid → Open (p r) fun x => x.2.Valid

namespace Follows

variable {p : FormParser α}

theorem bind {k : α → FormParser β} (hp : Follows p) (hk : ∀ a, Follows (k a)) :
  Follows (p >>= k)
  := fun r hr => (hp r hr).bind fun x hx => hk x.1 x.2 hx

theorem pure (a : α) :
  Follows (pure a)
  := fun _ hr => .pure hr

theorem throw {e : ParseError} (h : e.isLexical = false) :
  Follows (throw e : FormParser α)
  := fun _ _ => .throw h

theorem get {k : Remaining → FormParser β} (h : ∀ r, r.Valid → Follows (k r)) :
  Follows (get >>= k)
  := fun r hr => h r hr r hr

theorem set {r : Remaining} (hr : r.Valid) :
  Follows (set r)
  := fun _ _ => .pure hr

theorem lift {p : Parser α} {good : α → Prop} (h : Open p good) :
  Follows (liftM p)
  := fun _ hr => Open.bind h fun _ _ => .pure hr

theorem ite {c : Prop} [Decidable c] {p q : FormParser α} (hp : Follows p) (hq : Follows q) :
  Follows (if c then p else q)
  := by
  split
  · exact hp
  · exact hq

theorem mapM {f : Part → Parser α} {parts : List Part} (h : ∀ part ∈ parts, IsOpen (f part)) :
  Follows (parts.mapM fun part => (f part : FormParser α))
  := by
  induction parts with
  | nil =>
    rw [List.mapM_nil]
    exact .pure _
  | cons part parts ih =>
    rw [List.forall_mem_cons] at h
    rw [List.mapM_cons]
    exact .bind (.lift h.1) fun _ => .bind (ih h.2) fun _ => .pure _

end Follows

theorem isOpen_within {p : FormParser α} (hparts : Remaining.Valid ⟨parts, closing⟩) (hp : Follows p) :
  IsOpen (FormParser.within parts closing p)
  := Open.bind (hp ⟨parts, closing⟩ hparts) fun _ _ => .pure trivial

namespace FormParser

/-- The next token is valid. -/
theorem open_current {r : Remaining} (hr : r.Valid) :
  Open (current r) fun x => x.1.IsValid ∧ x.2.Valid
  := by
  refine .pure ⟨?_, hr⟩
  cases hparts : r.parts with
  | nil => exact hr.closing
  | cons part parts => exact (hr.parts part (hparts ▸ List.mem_cons_self ..)).lead

theorem follows_current :
  Follows current
  := fun _ hr => (open_current hr).mono fun _ hx => hx.2

theorem open_unexpected {r : Remaining} (hr : r.Valid) (expected : String) {good : α × Remaining → Prop} :
  Open (unexpected expected r) good
  := (open_current hr).bind fun _ hx => .throw (hx.1.isLexical_unexpected expected)

theorem follows_unexpected (expected : String) :
  Follows (unexpected expected : FormParser α)
  := fun _ hr => open_unexpected hr expected

theorem follows_second :
  Follows second
  := fun _ hr => .pure hr

theorem follows_atEnd :
  Follows atEnd
  := fun _ hr => .pure hr

theorem follows_skip :
  Follows skip
  := fun _ hr => .pure ⟨fun part hpart => hr.parts part (List.mem_of_mem_drop hpart), hr.closing⟩

theorem follows_expr :
  Follows expr
  := by
  refine .get fun r hr => ?_
  split
  · next part parts hparts =>
    exact follows_skip.bind fun _ => .lift (hr.parts part (hparts ▸ List.mem_cons_self ..)).expr
  · exact follows_unexpected _

theorem follows_body :
  Follows body
  := .get fun _ hr => .bind (.set hr.done) fun _ => .mapM fun part hpart => (hr.parts part hpart).expr

theorem follows_name (expected : String) :
  Follows (name expected)
  := by
  refine follows_current.bind fun token => ?_
  split
  · exact follows_skip.bind fun _ => .pure _
  · exact follows_unexpected _

theorem follows_close (opening : Token) :
  Follows (close opening)
  := follows_current.bind fun _ => .ite (.pure _) (.ite (.throw rfl) (follows_unexpected _))

theorem follows_type :
  Follows type
  := by
  refine follows_current.bind fun token => ?_
  split
  · refine follows_skip.bind fun _ => ?_
    split
    · exact .pure _
    · exact .throw rfl
  · exact follows_unexpected _

theorem follows_typedName (opening : Token) (expected : String) :
  Follows (typedName opening expected)
  := (follows_name expected).bind fun _ => follows_type.bind fun _ => (follows_close opening).bind fun _ => .pure _

end FormParser

/-! ## Operators -/

theorem isOpen_chain (op : BinaryOp) (first : Expr) (rest : List Expr) :
  IsOpen (chain op first rest)
  := by
  induction rest generalizing first with
  | nil => exact .pure trivial
  | cons next rest ih => exact (isOpen_makeExpr _ _).bind fun both _ => ih both

theorem isOpen_applyOperator (symbol : String) (operands : List Expr) (span : Span) :
  IsOpen (applyOperator symbol operands span)
  := by
  unfold applyOperator
  split
  · exact isOpen_makeExpr _ _
  · exact (isOpen_chain _ _ _).bind fun _ _ => .pure trivial
  · exact .throw rfl
  · exact isOpen_makeExpr _ _

namespace FormParser

theorem follows_getState :
  Follows (getThe ParserState)
  := fun _ hr _ => ⟨rfl, hr⟩

theorem follows_peekOperator :
  Follows peekOperator
  := by
  refine follows_current.bind fun token => ?_
  split
  · exact follows_getState.bind fun _ => .pure _
  · exact .pure _

mutual

theorem follows_climb : ∀ (bound : Nat) (lhs : Expr) (least : Nat), Follows (climb bound lhs least)
  | 0, _, _ => .pure _
  | bound + 1, lhs, least => by
    rw [climb]
    refine follows_current.bind fun token => follows_peekOperator.bind fun operator => ?_
    split
    · refine .ite (.pure _) (follows_skip.bind fun _ => follows_expr.bind fun first => ?_)
      refine (follows_climbRight bound _ first).bind fun _ => .bind (.lift (isOpen_makeExpr _ _)) fun both => ?_
      exact follows_climb bound both least
    · exact .throw rfl
    · exact .pure _

theorem follows_climbRight : ∀ (bound : Nat) (info : OperatorInfo) (rhs : Expr), Follows (climbRight bound info rhs)
  | 0, _, _ => .pure _
  | bound + 1, info, rhs => by
    rw [climbRight]
    refine follows_peekOperator.bind fun operator => ?_
    split
    · exact (follows_climb bound rhs _).bind fun next => follows_climbRight bound info next
    · exact .pure _

end

theorem follows_operatorChain (lhs : Expr) :
  Follows (operatorChain lhs)
  := .get fun _ _ => follows_climb _ lhs 0

end FormParser

/-! ## Pattern conditionals -/

theorem isOpen_predicate {part : Part} (h : part.Valid) :
  IsOpen (Predicate.ofPart part)
  := by
  unfold Predicate.ofPart
  split
  · have hrest := h.remaining
    refine isOpen_within ⟨(List.forall_mem_cons.mp hrest.parts).2, hrest.closing⟩ ?_
    exact FormParser.follows_body.bind fun _ => (FormParser.follows_close _).bind fun _ => .pure _
  · exact h.expr.bind fun _ _ => .pure trivial

theorem isOpen_test (subject : Expr) (predicate : Predicate) :
  IsOpen (predicate.test subject)
  := by
  cases predicate with
  | equals e => exact (isOpen_makeExpr _ _).bind fun _ _ => isOpen_makeExpr _ _
  | partly symbol operands span => exact (isOpen_makeExpr _ _).bind fun _ _ => isOpen_applyOperator _ _ _

theorem isOpen_parseClauses : ∀ parts : List Part, (∀ part ∈ parts, part.Valid) → IsOpen (parseClauses parts)
  | [], _ => by
    rw [parseClauses]
    exact .pure trivial
  | [last], h => by
    rw [parseClauses]
    refine (isOpen_predicate (List.forall_mem_singleton.mp h)).bind fun predicate _ => ?_
    cases predicate with
    | equals e => exact .pure trivial
    | partly symbol operands span => exact .throw rfl
  | first :: second :: rest, h => by
    rw [List.forall_mem_cons, List.forall_mem_cons] at h
    obtain ⟨hfirst, hsecond, hrest⟩ := h
    rw [parseClauses]
    exact (isOpen_predicate hfirst).bind fun _ _ => hsecond.expr.bind fun _ _ =>
      (isOpen_parseClauses rest hrest).bind fun _ _ => .pure trivial

theorem isOpen_nestClauses (subject default : Expr) (clauses : List (Predicate × Expr)) :
  IsOpen (nestClauses subject default clauses)
  := by
  induction clauses with
  | nil => exact .pure trivial
  | cons clause clauses ih => exact ih.bind fun _ _ => (isOpen_test _ _).bind fun _ _ => isOpen_makeExpr _ _

namespace FormParser

theorem follows_conditional (value : Expr) (opening : Token) :
  Follows (conditional value opening)
  := by
  refine .get fun r hr => .bind (.lift (isOpen_parseClauses r.parts hr.parts)) fun clauses => ?_
  obtain ⟨clauses, default⟩ := clauses
  refine .bind (.set hr.done) fun _ => (follows_close opening).bind fun stop => ?_
  cases default with
  | none => exact .throw rfl
  | some default =>
    refine .ite (.bind (.lift (isOpen_nestClauses _ _ _)) fun _ => .pure _) ?_
    exact .bind (.lift isOpen_hiddenName) fun _ => .bind (.lift (isOpen_makeExpr _ _)) fun _ =>
      .bind (.lift (isOpen_makeExpr _ _)) fun _ => .bind (.lift (isOpen_nestClauses _ _ _)) fun _ =>
      .lift (isOpen_makeExpr _ _)

/-! ## Special forms -/

theorem follows_binding :
  Follows binding
  := by
  refine .get fun r hr => ?_
  split
  · exact follows_skip.bind fun _ => .pure _
  · next opening parts closing expr rest hparts =>
    have hgroup := (hr.parts (.group opening parts closing expr) (hparts ▸ List.mem_cons_self ..)).remaining
    exact follows_skip.bind fun _ => .bind (.lift (isOpen_within hgroup (follows_typedName _ _))) fun _ => .pure _
  · exact follows_unexpected _

theorem follows_declaration (isMutable : Bool) :
  Follows (declaration isMutable)
  := follows_binding.bind fun _ => follows_expr.bind fun _ => .pure _

theorem follows_assignment (head : Token) :
  Follows (assignment head)
  := by
  refine follows_expr.bind fun target => follows_expr.bind fun value => ?_
  split
  · exact .pure _
  · exact .pure _
  · exact .throw rfl

theorem follows_conditionalForm (isCheck : Bool) :
  Follows (conditionalForm isCheck)
  := follows_expr.bind fun _ => follows_expr.bind fun _ => follows_atEnd.bind fun _ =>
    .ite (follows_expr.bind fun _ => .pure _) (.pure _)

theorem follows_forForm :
  Follows forForm
  := by
  refine follows_expr.bind fun init => ?_
  split
  · exact follows_expr.bind fun _ => follows_expr.bind fun _ => follows_body.bind fun _ => .pure _
  · exact .throw rfl

theorem isOpen_resource {part : Part} (h : part.Valid) :
  IsOpen (resource part)
  := by
  unfold resource
  split
  · exact isOpen_within h.remaining ((follows_name _).bind fun _ => follows_expr.bind fun _ =>
      (follows_close _).bind fun _ => .pure _)
  · exact .throw (h.lead.isLexical_unexpected _)

theorem follows_resourceForm :
  Follows resourceForm
  := by
  refine .get fun r hr => ?_
  split
  · next opening parts closing expr rest hparts =>
    have hgroup := (hr.parts (.group opening parts closing expr) (hparts ▸ List.mem_cons_self ..)).remaining
    refine follows_skip.bind fun _ => .bind (.lift (isOpen_within hgroup ?_)) fun _ =>
      follows_body.bind fun _ => .pure _
    exact .get fun r hr => .bind (.mapM fun part hpart => isOpen_resource (hr.parts part hpart)) fun _ =>
      .bind (.set hr.done) fun _ => (follows_close _).bind fun _ => .pure _
  · exact follows_unexpected _

theorem follows_special (head : Token) (text : String) :
  Follows (special head text)
  := by
  have hbody : ∀ form : List Expr → Shape Expr, Follows (do return form (← body)) :=
    fun _ => follows_body.bind fun _ => .pure _
  have hexpr : ∀ form : Expr → Shape Expr, Follows (do return form (← expr)) :=
    fun _ => follows_expr.bind fun _ => .pure _
  have hwhile : ∀ isAsync, Follows (do return Shape.whileLoop isAsync (← expr) (← body)) :=
    fun _ => follows_expr.bind fun _ => follows_body.bind fun _ => .pure _
  unfold special
  split
  · exact follows_declaration false
  · exact follows_declaration true
  · exact follows_assignment head
  · exact hbody _
  · exact follows_conditionalForm false
  · exact follows_conditionalForm true
  · exact hwhile false
  · exact hwhile true
  · exact follows_forForm
  · exact hbody _
  · exact .pure _
  · exact .pure _
  · exact follows_atEnd.bind fun _ => .ite (.pure _) (follows_expr.bind fun _ => .pure _)
  · exact follows_expr.bind fun _ => follows_expr.bind fun _ => .pure _
  · exact hbody _
  · exact hbody _
  · exact hexpr _
  · exact hexpr _
  · exact hexpr _
  · exact hexpr _
  · exact hexpr _
  · exact follows_resourceForm
  · exact hbody _
  · exact .pure _
  · exact hexpr _
  · exact hexpr _
  · exact .throw rfl

theorem follows_specialForm (opening head : Token) (text : String) :
  Follows (specialForm opening head text)
  := by
  have hclose : ∀ shape : Shape Expr, Follows (do
      let stop ← close opening
      makeExpr (opening.span.merge stop) shape) :=
    fun _ => (follows_close opening).bind fun _ => .lift (isOpen_makeExpr _ _)
  refine (follows_special head text).bind fun shape => follows_atEnd.bind fun ended => ?_
  exact .ite (hclose shape) (follows_current.bind fun _ => .throw rfl)

theorem follows_call (opening : Token) (callee : String) :
  Follows (call opening callee)
  := follows_body.bind fun _ => (follows_close opening).bind fun _ => .lift (isOpen_makeExpr _ _)

theorem follows_headForm (opening : Token) :
  Follows (headForm opening)
  := by
  refine follows_current.bind fun head => ?_
  split
  · exact follows_skip.bind fun _ => .ite (follows_specialForm _ _ _) (follows_call _ _)
  · exact follows_skip.bind fun _ => follows_body.bind fun _ => (follows_close opening).bind fun _ =>
      .lift (isOpen_applyOperator _ _ _)
  · exact .throw rfl
  · exact follows_unexpected _
  · exact .throw rfl
  · exact .throw rfl
  · exact .throw rfl

theorem follows_startsWithHead :
  Follows startsWithHead
  := by
  refine follows_current.bind fun token => ?_
  split
  · exact .pure _
  · refine follows_second.bind fun kind => ?_
    split <;> exact .pure _
  · exact .pure _

theorem follows_parenForm (opening : Token) :
  Follows (parenForm opening)
  := by
  refine follows_startsWithHead.bind fun isHead => .ite (follows_headForm opening) ?_
  refine follows_expr.bind fun first => follows_current.bind fun token => ?_
  split
  · exact follows_skip.bind fun _ => follows_conditional _ _
  · exact (follows_operatorChain first).bind fun _ => (follows_close opening).bind fun _ => .pure _
  · exact .pure _
  · exact follows_call _ _
  · exact follows_unexpected _

end FormParser

/-! ## Trees of tokens -/

theorem isOpen_parseGroup {opening : Token} (h : Remaining.Valid ⟨parts, closing⟩) :
  IsOpen (parseGroup opening parts closing)
  := isOpen_within h (.ite (FormParser.follows_parenForm opening) (FormParser.follows_headForm opening))

theorem isOpen_parseAtom (h : token.IsValid) :
  IsOpen (parseAtom token)
  := by
  unfold parseAtom
  split
  iterate 5 exact isOpen_makeExpr _ _
  exact .throw (h.isLexical_unexpected _)

mutual

theorem valid_toPart : ∀ {tree : TokenTree}, tree.All Token.IsValid → tree.toPart.Valid
  | .atom _, .atom h => .atom h (isOpen_parseAtom h)
  | .group _ trees _, .group hopening hparts hclosing =>
    .group hopening (valid_toParts trees hparts) hclosing (isOpen_parseGroup ⟨valid_toParts trees hparts, hclosing⟩)

theorem valid_toParts : ∀ trees : List TokenTree, (∀ tree ∈ trees, tree.All Token.IsValid) →
    ∀ part ∈ toParts trees, part.Valid
  | [], _ => List.forall_mem_nil _
  | tree :: trees, h => by
    rw [List.forall_mem_cons] at h
    exact List.forall_mem_cons.mpr ⟨valid_toPart h.1, valid_toParts trees h.2⟩

end

namespace FormParser

end FormParser

mutual

/-- The number of forms outside of expressions; the forms in a module group count beside the group. -/
def Part.formCount : Part → Nat
  | .group _ (.atom ⟨.ident "module", _⟩ _ :: .atom ⟨.ident _, _⟩ _ :: parts) _ _ => 1 + formCounts parts
  | _ => 1

/-- The number of forms outside of expressions in several parts. -/
def formCounts : List Part → Nat
  | [] => 0
  | part :: parts => part.formCount + formCounts parts

end

mutual

/-- The number of items that an item and the items in it are. -/
def Item.itemCount : Item → Nat
  | .group _ items _ => 1 + itemCounts items
  | _ => 1

/-- The number of items in a list of items, those in groups included. -/
def itemCounts : List Item → Nat
  | [] => 0
  | item :: items => item.itemCount + itemCounts items

end

/-- Errors have been recorded after others, none of which the lexer has reported already. -/
def RecordedAfter (errors errors' : List ParseError) : Prop :=
  ∃ new, errors' = errors ++ new ∧ ∀ e ∈ new, e.isLexical = false

namespace RecordedAfter

variable {errors errors' errors'' : List ParseError}

theorem refl (errors : List ParseError) :
  RecordedAfter errors errors
  := ⟨[], (List.append_nil _).symm, List.forall_mem_nil _⟩

theorem trans (h : RecordedAfter errors errors') (h' : RecordedAfter errors' errors'') :
  RecordedAfter errors errors''
  := by
  obtain ⟨new, rfl, hnew⟩ := h
  obtain ⟨new', rfl, hnew'⟩ := h'
  exact ⟨new ++ new', List.append_assoc .., List.forall_mem_append.mpr ⟨hnew, hnew'⟩⟩

theorem length_le (h : RecordedAfter errors errors') :
  errors.length ≤ errors'.length
  := by
  obtain ⟨new, rfl, -⟩ := h
  simp

/-- Nothing has been recorded on the way if nothing has been recorded in the end. -/
theorem eq_of_eq (h : RecordedAfter errors errors') (h' : RecordedAfter errors' errors'') (hsame : errors'' = errors) :
  errors' = errors ∧ errors'' = errors'
  := by
  obtain ⟨new, rfl, -⟩ := h
  have hlength := h'.length_le
  rw [hsame, List.length_append] at hlength
  obtain rfl : new = [] := List.length_eq_zero_iff.mp (by omega)
  rw [List.append_nil]
  exact ⟨rfl, hsame⟩

end RecordedAfter

/-- Parsing that only adds to the recorded errors, and what it makes if it does not. -/
def Records (p : StateM ParserState α) (good : α → Prop) : Prop :=
  ∀ s, RecordedAfter s.errors (p s).2.errors ∧ ((p s).2.errors = s.errors → good (p s).1)

/-- A parser that only adds to the recorded errors and fails with errors that will be, and what it makes otherwise. -/
def Adds (p : Parser α) (good : α → Prop) : Prop :=
  ∀ s, RecordedAfter s.errors (p s).2.errors ∧ match (p s).1 with
    | .ok a => (p s).2.errors = s.errors → good a
    | .error e => e.isLexical = false

namespace Records

theorem bind {p : StateM ParserState α} {k : α → StateM ParserState β} {good : α → Prop} {good' : β → Prop}
    (hp : Records p good) (hk : ∀ a, Records (k a) fun b => good a → good' b) :
  Records (p >>= k) good'
  := by
  intro s
  obtain ⟨hadds, hgood⟩ := hp s
  obtain ⟨hadds', hgood'⟩ := hk (p s).1 (p s).2
  refine ⟨hadds.trans hadds', fun hsame => ?_⟩
  obtain ⟨hfirst, hsecond⟩ := hadds.eq_of_eq hadds' hsame
  exact hgood' hsecond (hgood hfirst)

theorem pure {a : α} {good : α → Prop} (h : good a) :
  Records (pure a) good
  := fun _ => ⟨.refl _, fun _ => h⟩

/-- An item that is left out is reported. -/
theorem recovering {p : Parser Item} {good : Item → Prop} (hp : Adds p good) :
  Records (recovering p) fun found => ∃ item, found = some item ∧ good item
  := by
  intro s
  have hrun := hp s
  unfold FormCompiler.recovering
  simp only [Bind.bind, StateT.bind, ExceptT.run]
  generalize p s = r at hrun ⊢
  obtain ⟨e | item, s'⟩ := r
  · obtain ⟨hadds, hreported⟩ := hrun
    dsimp only at hreported ⊢
    rw [if_neg (by simp [hreported])]
    have hmore : RecordedAfter s.errors (s'.errors ++ [e]) :=
      hadds.trans ⟨[e], rfl, List.forall_mem_singleton.mpr hreported⟩
    refine ⟨hmore, fun hsame => absurd (congrArg List.length hsame) ?_⟩
    change (s'.errors ++ [e]).length ≠ _
    have hlength : s.errors.length ≤ s'.errors.length := hadds.length_le
    rw [List.length_append, List.length_singleton]
    omega
  · exact ⟨hrun.1, fun hsame => ⟨item, rfl, hrun.2 hsame⟩⟩

end Records

namespace Adds

variable {good : α → Prop}

theorem lift {p : StateM ParserState α} (hp : Records p good) :
  Adds (liftM p) good
  := hp

theorem bind {p : Parser α} {k : α → Parser β} {good' : β → Prop} (hp : Adds p good)
    (hk : ∀ a, Adds (k a) fun b => good a → good' b) :
  Adds (p >>= k) good'
  := by
  intro s
  have hrun := hp s
  rw [Ensures.bind_apply]
  generalize p s = r at hrun ⊢
  obtain ⟨e | a, s'⟩ := r
  · exact hrun
  · have hrun' := hk a s'
    dsimp only at hrun ⊢
    generalize k a s' = r' at hrun' ⊢
    obtain ⟨hadds, hgood⟩ := hrun
    obtain ⟨e | b, s''⟩ := r'
    · exact ⟨hadds.trans hrun'.1, hrun'.2⟩
    · refine ⟨hadds.trans hrun'.1, fun hsame => ?_⟩
      obtain ⟨hfirst, hsecond⟩ := hadds.eq_of_eq hrun'.1 hsame
      exact hrun'.2 hsecond (hgood hfirst)

end Adds

end FormCompiler
