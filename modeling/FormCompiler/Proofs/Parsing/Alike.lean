import FormCompiler.Parsing.Item
import FormCompiler.Proofs.Action.Ensures
import FormCompiler.Proofs.Parsing.Boundaries

/-!
# Forms do not depend on each other

What one form leaves for the next are numbers of identifiers and hidden names, and the operators. So in two states
that differ in these numbers, and in operators that a form does not use, a parser of the form makes the same, up to
identifiers and hidden names, or fails with the same error: it is `Alike` itself (`TokenTree.Closed.steady`). A parser
of a group that succeeds has taken all parts of the group, and the group ends in the closing delimiter of its own
kind (`Remaining.Ended`).
-/

namespace FormCompiler

variable {α β γ δ : Type}
variable {R : α → β → Prop} {closing : Token}

/-! ## Syntax up to identifiers and hidden names -/

/-- By how many identifiers and hidden names two states differ, and in which operators. -/
structure Shift where
  ids : Int
  names : Int
  symbols : List String

/-- Two names are the same, or hidden names at a distance. -/
def NamesAlike (d : Shift) (name name' : String) : Prop :=
  name = name' ∨ ∃ n m : Nat, n = m + d.names ∧ name = s!"__pat{n}" ∧ name' = s!"__pat{m}"

theorem NamesAlike.refl (d : Shift) (name : String) :
  NamesAlike d name name
  := .inl rfl

/-- Resources with the same name, whose initial values are related. -/
inductive Resource.Like (R : α → β → Prop) : Resource α → Resource β → Prop
  | mk {name : String} {init : α} {init' : β} {span : Span} (h : R init init') :
    Like R ⟨name, init, span⟩ ⟨name, init', span⟩

/-- Forms of the same kind whose parts are related. -/
inductive Shape.Like (d : Shift) (R : α → β → Prop) : Shape α → Shape β → Prop
  | literal {value : Literal} : Like d R (.literal value) (.literal value)
  | name {name name' : String} (hname : NamesAlike d name name') : Like d R (.name name) (.name name')
  | call {name name' : String} {args : List α} {args' : List β} (hname : NamesAlike d name name')
    (hargs : List.Forall₂ R args args') : Like d R (.call name args) (.call name' args')
  | binary {op : BinaryOp} {lhs rhs : α} {lhs' rhs' : β} (hlhs : R lhs lhs') (hrhs : R rhs rhs') :
    Like d R (.binary op lhs rhs) (.binary op lhs' rhs')
  | unary {op : UnaryOp} {operand : α} {operand' : β} (h : R operand operand') :
    Like d R (.unary op operand) (.unary op operand')
  | declare {isMutable : Bool} {name name' : String} {type : Option Ty} {init : α} {init' : β}
    (hname : NamesAlike d name name') (h : R init init') :
    Like d R (.declare isMutable name type init) (.declare isMutable name' type init')
  | assign {name name' : String} {value : α} {value' : β} (hname : NamesAlike d name name') (h : R value value') :
    Like d R (.assign name value) (.assign name' value')
  | assignElement {target index value : α} {target' index' value' : β} (htarget : R target target')
    (hindex : R index index') (hvalue : R value value') :
    Like d R (.assignElement target index value) (.assignElement target' index' value')
  | scope {body : List α} {body' : List β} (h : List.Forall₂ R body body') : Like d R (.scope body) (.scope body')
  | cond {isCheck : Bool} {test thenBranch : α} {test' thenBranch' : β} {elseBranch : Option α}
    {elseBranch' : Option β} (htest : R test test') (hthen : R thenBranch thenBranch')
    (helse : Option.Rel R elseBranch elseBranch') :
    Like d R (.cond isCheck test thenBranch elseBranch) (.cond isCheck test' thenBranch' elseBranch')
  | whileLoop {isAsync : Bool} {test : α} {test' : β} {body : List α} {body' : List β} (htest : R test test')
    (hbody : List.Forall₂ R body body') : Like d R (.whileLoop isAsync test body) (.whileLoop isAsync test' body')
  | forLoop {init test step : α} {init' test' step' : β} {body : List α} {body' : List β} (hinit : R init init')
    (htest : R test test') (hstep : R step step') (hbody : List.Forall₂ R body body') :
    Like d R (.forLoop init test step body) (.forLoop init' test' step' body')
  | loop {body : List α} {body' : List β} (h : List.Forall₂ R body body') : Like d R (.loop body) (.loop body')
  | breakLoop : Like d R .breakLoop .breakLoop
  | continueLoop : Like d R .continueLoop .continueLoop
  | ret {value : Option α} {value' : Option β} (h : Option.Rel R value value') : Like d R (.ret value) (.ret value')
  | element {target index : α} {target' index' : β} (htarget : R target target') (hindex : R index index') :
    Like d R (.element target index) (.element target' index')
  | array {items : List α} {items' : List β} (h : List.Forall₂ R items items') : Like d R (.array items) (.array items')
  | tuple {items : List α} {items' : List β} (h : List.Forall₂ R items items') : Like d R (.tuple items) (.tuple items')
  | length {target : α} {target' : β} (h : R target target') : Like d R (.length target) (.length target')
  | alloc {size : α} {size' : β} (h : R size size') : Like d R (.alloc size) (.alloc size')
  | free {pointer : α} {pointer' : β} (h : R pointer pointer') : Like d R (.free pointer) (.free pointer')
  | withResources {resources : List (Resource α)} {resources' : List (Resource β)} {body : List α} {body' : List β}
    (hresources : List.Forall₂ (Resource.Like R) resources resources') (hbody : List.Forall₂ R body body') :
    Like d R (.withResources resources body) (.withResources resources' body')
  | atomic {body : List α} {body' : List β} (h : List.Forall₂ R body body') : Like d R (.atomic body) (.atomic body')
  | mutex {op : MutexOp} {handle : Option α} {handle' : Option β} (h : Option.Rel R handle handle') :
    Like d R (.mutex op handle) (.mutex op handle')

/-- Expressions that are the same up to identifiers and hidden names. -/
inductive Expr.Like (d : Shift) : Expr → Expr → Prop
  | node {id id' : Nat} {span : Span} {shape shape' : Shape Expr} (hid : id = id' + d.ids)
    (h : Shape.Like d (Expr.Like d) shape shape') : Like d (.node id span shape) (.node id' span shape')

namespace Expr.Like

variable {d : Shift} {e e' : Expr}

theorem span (h : e.Like d e') :
  e.span = e'.span
  := by
  cases h
  rfl

theorem shape (h : e.Like d e') :
  Shape.Like d (Expr.Like d) e.shape e'.shape
  := by
  cases h with
  | node _ h => exact h

theorem withSpan (h : e.Like d e') (span : Span) :
  (e.withSpan span).Like d (e'.withSpan span)
  := by
  cases h with
  | node hid h => exact .node hid h

theorem isAtomic (h : e.Like d e') :
  e.isAtomic = e'.isAtomic
  := by
  cases h with
  | node _ h => cases h <;> rfl

end Expr.Like

/-- Items that are the same up to identifiers and hidden names in their expressions. -/
inductive Item.Like (d : Shift) : Item → Item → Prop
  | group {name : String} {items items' : List Item} {span : Span} (h : List.Forall₂ (Item.Like d) items items') :
    Like d (.group name items span) (.group name items' span)
  | const {name : String} {type : Option Ty} {init init' : Expr} {span : Span} (h : init.Like d init') :
    Like d (.const ⟨name, type, init, span⟩) (.const ⟨name, type, init', span⟩)
  | function {name : String} {params : List Param} {result : Option Ty} {body body' : List Expr} {span : Span}
    (h : List.Forall₂ (Expr.Like d) body body') :
    Like d (.function ⟨name, params, result, body, span⟩) (.function ⟨name, params, result, body', span⟩)
  | foreign {decl : ForeignDecl} : Like d (.foreign decl) (.foreign decl)
  | operator {symbol : String} {precedence : Nat} {assoc : Assoc} {params : List Param} {result : Option Ty}
    {body body' : List Expr} {span : Span} (h : List.Forall₂ (Expr.Like d) body body') :
    Like d (.operator ⟨symbol, precedence, assoc, params, result, body, span⟩)
      (.operator ⟨symbol, precedence, assoc, params, result, body', span⟩)
  | expr {e e' : Expr} (h : e.Like d e') : Like d (.expr e) (.expr e')

/-! ## Parsers -/

/-- A table of operators after some symbols may have been declared. -/
def OperatorTable.Extends (declared : List String) (t t' : OperatorTable) : Prop :=
  ∃ new, t'.entries = new ++ t.entries ∧ ∀ entry ∈ new, entry.1 ∈ declared

/-- Two tables say the same about all symbols but some. -/
def OperatorTable.Agrees (symbols : List String) (t t' : OperatorTable) : Prop :=
  ∀ symbol, symbol ∉ symbols → t.lookup symbol = t'.lookup symbol

namespace OperatorTable.Extends

variable {declared : List String} {t t' t'' : OperatorTable}

theorem refl (declared : List String) (t : OperatorTable) :
  t.Extends declared t
  := ⟨[], rfl, List.forall_mem_nil _⟩

theorem trans (h : t.Extends declared t') (h' : t'.Extends declared t'') :
  t.Extends declared t''
  := by
  obtain ⟨new, hnew, hdeclared⟩ := h
  obtain ⟨new', hnew', hdeclared'⟩ := h'
  exact ⟨new' ++ new, by rw [hnew', hnew, List.append_assoc], List.forall_mem_append.mpr ⟨hdeclared', hdeclared⟩⟩

theorem mono {declared' : List String} (h : t.Extends declared t') (hsub : declared ⊆ declared') :
  t.Extends declared' t'
  := by
  obtain ⟨new, hnew, hdeclared⟩ := h
  exact ⟨new, hnew, fun entry hentry => hsub (hdeclared entry hentry)⟩

/-- Nothing can have been declared if there are no symbols for it. -/
theorem eq_of_nil (h : t.Extends [] t') :
  t' = t
  := by
  obtain ⟨new, hnew, hdeclared⟩ := h
  obtain rfl : new = [] := List.eq_nil_iff_forall_not_mem.mpr fun entry hentry => by simpa using hdeclared entry hentry
  cases t'
  cases t
  exact congrArg _ hnew

/-- What the table says about a symbol changes only if the symbol is declared. -/
theorem agrees (h : t.Extends declared t') :
  t'.Agrees declared t
  := by
  obtain ⟨new, hnew, hdeclared⟩ := h
  intro symbol hsymbol
  have hnone : new.lookup symbol = none := List.lookup_eq_none_iff.mpr fun entry hentry =>
    bne_iff_ne.mpr (ne_of_mem_of_not_mem (hdeclared entry hentry) hsymbol).symm
  rw [OperatorTable.lookup, OperatorTable.lookup, hnew, List.lookup_append, hnone, Option.none_or]

end OperatorTable.Extends

/-- Two states of a parser differ by a shift. -/
structure ParserState.Like (d : Shift) (s s' : ParserState) : Prop where
  nextId : s.nextId = s'.nextId + d.ids
  hiddenNames : s.hiddenNames = s'.hiddenNames + d.names
  operators : s.operators.Agrees d.symbols s'.operators

/-- Two parsers have both succeeded, with related values, or have failed with the same error. -/
def ResultsAlike (R : α → β → Prop) : Except ParseError α → Except ParseError β → Prop
  | .ok a, .ok b => R a b
  | .error e, .error e' => e = e'
  | _, _ => False

/--
From states that differ by a shift, two parsers have come to related results and to states that differ by the same
shift. They have recorded the same errors, and have only declared given symbols.
-/
structure RunsAlike (d : Shift) (declared : List String) (R : α → β → Prop) (s s' : ParserState)
    (run : Except ParseError α × ParserState) (run' : Except ParseError β × ParserState) : Prop where
  like : run.2.Like d run'.2
  operators : s.operators.Extends declared run.2.operators
  errors : ∃ new, run.2.errors = s.errors ++ new ∧ run'.2.errors = s'.errors ++ new
  results : ResultsAlike R run.1 run'.1

variable {d : Shift}

/-- Parsers that leave the errors and the operators as they are. -/
theorem RunsAlike.of_like {declared : List String} {s s' : ParserState} {run : Except ParseError α × ParserState}
    {run' : Except ParseError β × ParserState} (hlike : run.2.Like d run'.2)
    (hoperators : run.2.operators = s.operators) (herrors : run.2.errors = s.errors)
    (herrors' : run'.2.errors = s'.errors) (hresults : ResultsAlike R run.1 run'.1) :
  RunsAlike d declared R s s' run run'
  := by
  refine ⟨hlike, ?_, ⟨[], ?_, ?_⟩, hresults⟩
  · rw [hoperators]
    exact .refl declared _
  · rw [herrors, List.append_nil]
  · rw [herrors', List.append_nil]

/-- Two parsers do alike in states that differ by a shift. -/
def Alike (d : Shift) (declared : List String) (p : Parser α) (p' : Parser β) (R : α → β → Prop) : Prop :=
  ∀ s s', s.Like d s' → RunsAlike d declared R s s' (p s) (p' s')

namespace Alike

variable {d : Shift} {declared : List String} {p : Parser α} {p' : Parser β} {R : α → β → Prop}

theorem bind {k : α → Parser γ} {k' : β → Parser δ} {R' : γ → δ → Prop} (hp : Alike d declared p p' R)
    (hk : ∀ a b, R a b → Alike d declared (k a) (k' b) R') :
  Alike d declared (p >>= k) (p' >>= k') R'
  := by
  intro s s' hs
  have hrun := hp s s' hs
  rw [Ensures.bind_apply, Ensures.bind_apply]
  generalize p s = r at hrun ⊢
  generalize p' s' = r' at hrun ⊢
  obtain ⟨e | a, t⟩ := r <;> obtain ⟨e' | b, t'⟩ := r'
  · exact ⟨hrun.like, hrun.operators, hrun.errors, hrun.results⟩
  · exact hrun.results.elim
  · exact hrun.results.elim
  · have hrun' := hk a b hrun.results t t' hrun.like
    obtain ⟨new, hnew, hnew'⟩ := hrun.errors
    obtain ⟨more, hmore, hmore'⟩ := hrun'.errors
    dsimp only at hnew hnew'
    refine ⟨hrun'.like, hrun.operators.trans hrun'.operators, ⟨new ++ more, ?_, ?_⟩, hrun'.results⟩
    · rw [hmore, hnew, List.append_assoc]
    · rw [hmore', hnew', List.append_assoc]

theorem pure {a : α} {b : β} (h : R a b) :
  Alike d declared (pure a) (pure b) R
  := fun _ _ hs => .of_like hs rfl rfl rfl h

theorem throw {e : ParseError} :
  Alike d declared (throw e) (throw e) R
  := fun _ _ hs => .of_like hs rfl rfl rfl rfl

theorem of_subset {declared' : List String} (h : Alike d declared' p p' R) (hsub : declared' ⊆ declared) :
  Alike d declared p p' R
  := by
  intro s s' hs
  have hrun := h s s' hs
  exact ⟨hrun.like, hrun.operators.mono hsub, hrun.errors, hrun.results⟩

theorem of_nil (h : Alike d [] p p' R) :
  Alike d declared p p' R
  := h.of_subset (List.nil_subset _)

theorem mono {R' : α → β → Prop} (hp : Alike d declared p p' R) (h : ∀ a b, R a b → R' a b) :
  Alike d declared p p' R'
  := by
  have hbind : Alike d declared (p >>= Pure.pure) (p' >>= Pure.pure) R' := hp.bind fun a b hab => pure (h a b hab)
  rwa [bind_pure, bind_pure] at hbind

end Alike

/-- No shift at all. -/
def Shift.none : Shift := ⟨0, 0, []⟩

theorem ParserState.Like.refl (s : ParserState) :
  s.Like .none s
  := ⟨(Int.add_zero _).symm, (Int.add_zero _).symm, fun _ _ => rfl⟩

theorem Alike.operators_eq {p : Parser α} {p' : Parser β} (h : Alike .none [] p p' R) (s : ParserState) :
  (p s).2.operators = s.operators
  := (h s s (.refl s)).operators.eq_of_nil

section

variable {d : Shift} {declared : List String}

theorem alike_makeExpr (span : Span) {shape shape' : Shape Expr} (h : Shape.Like d (Expr.Like d) shape shape') :
  Alike d declared (makeExpr span shape) (makeExpr span shape') (Expr.Like d)
  := by
  intro s s' hs
  refine .of_like ⟨?_, hs.hiddenNames, hs.operators⟩ rfl rfl rfl ?_
  · change ((s.nextId + 1 : Nat) : Int) = (s'.nextId + 1 : Nat) + d.ids
    have hnext := hs.nextId
    omega
  · exact .node hs.nextId h

theorem alike_hiddenName :
  Alike d declared hiddenName hiddenName (NamesAlike d)
  := by
  intro s s' hs
  refine .of_like ⟨hs.nextId, ?_, hs.operators⟩ rfl rfl rfl ?_
  · change ((s.hiddenNames + 1 : Nat) : Int) = (s'.hiddenNames + 1 : Nat) + d.names
    have hnames := hs.hiddenNames
    omega
  · exact .inr ⟨_, _, hs.hiddenNames, rfl, rfl⟩

end

/-! ## Parts -/

/-- A token is none of given symbols. -/
def Token.Avoids (symbols : List String) (token : Token) : Prop :=
  ∀ symbol ∈ symbols, token.kind ≠ .symbol symbol

/-- A token that ends a group: a closing delimiter, or the end of the text. -/
def Token.Ends (token : Token) : Prop := token.kind.isClose = true ∨ token.kind = .stop

theorem Token.Ends.avoids {token : Token} (h : token.Ends) (symbols : List String) :
  token.Avoids symbols
  := by
  intro symbol _ hkind
  rw [Token.Ends, hkind] at h
  rcases h with h | h <;> cases h

/--
Expressions of a part, and of those in it, are parsed alike; its symbols are not among those whose operators differ.
Only outside of all groups, a closing delimiter is a part.
-/
inductive Part.Steady (d : Shift) : Part → Prop
  | atom {token : Token} {expr : Parser Expr} (htoken : token.kind.isClose = false) (havoids : token.Avoids d.symbols)
    (h : Alike d [] expr expr (Expr.Like d)) : Steady d (.atom token expr)
  | group {opening closing : Token} {parts : List Part} {expr : Parser Expr} (hopening : opening.kind.isOpen = true)
    (hparts : ∀ part ∈ parts, Steady d part) (hclosing : closing.Ends) (h : Alike d [] expr expr (Expr.Like d)) :
    Steady d (.group opening parts closing expr)

/-- The parts that remain in a group are parsed alike. -/
structure Remaining.Steady (d : Shift) (closing : Token) (r : Remaining) : Prop where
  parts : ∀ part ∈ r.parts, part.Steady d
  ends : closing.Ends
  closing : r.closing = closing

/-- A token closes the groups that another one opens. -/
def Token.Closes (closing opening : Token) : Prop :=
  closing.kind = if opening.kind == .openParen then .closeParen else .closeBracket

/-- No parts remain in a group, and the token that ends it closes it. -/
structure Remaining.Ended (opening closing : Token) (r : Remaining) : Prop where
  parts : r.parts = []
  closes : closing.Closes opening
  closing : r.closing = closing

namespace Part.Steady

variable {d : Shift} {part : Part}

theorem expr (h : part.Steady d) :
  Alike d [] part.expr part.expr (Expr.Like d)
  := by
  cases h with
  | atom _ _ h => exact h
  | group _ _ _ h => exact h

theorem lead (h : part.Steady d) :
  part.lead.kind.isClose = false ∧ part.lead.Avoids d.symbols
  := by
  cases h with
  | atom htoken havoids _ => exact ⟨htoken, havoids⟩
  | @group opening _ _ _ hopening _ _ _ =>
    change opening.kind.isClose = false ∧ opening.Avoids d.symbols
    rw [Token.Avoids]
    cases hkind : opening.kind with
    | openBracket | openParen => exact ⟨rfl, by simp⟩
    | _ =>
      rw [hkind] at hopening
      cases hopening

theorem parts {opening closing : Token} {parts : List Part} {expr : Parser Expr}
    (h : Part.Steady d (.group opening parts closing expr)) :
  Remaining.Steady d closing ⟨parts, closing⟩
  := by
  cases h with
  | group _ hparts hclosing _ => exact ⟨hparts, hclosing, rfl⟩

end Part.Steady

theorem Remaining.Steady.tail {part : Part} {parts : List Part}
    (h : Remaining.Steady d closing ⟨part :: parts, closing⟩) :
  Remaining.Steady d closing ⟨parts, closing⟩
  := ⟨(List.forall_mem_cons.mp h.parts).2, h.ends, rfl⟩

theorem Remaining.Steady.done {r : Remaining} (h : r.Steady d closing) :
  Remaining.Steady d closing { r with parts := [] }
  := ⟨List.forall_mem_nil _, h.ends, h.closing⟩

/-- Two parsers that work through the same parts come to related results, and to the same parts that remain. -/
def Tracks (d : Shift) (declared : List String) (P Q : Remaining → Prop) (p : FormParser α) (p' : FormParser β)
    (R : α → β → Prop) : Prop :=
  ∀ r, P r → Alike d declared (p r) (p' r) fun x y => x.2 = y.2 ∧ Q x.2 ∧ R x.1 y.1

namespace Tracks

variable {d : Shift} {declared : List String} {P Q Q' : Remaining → Prop} {p : FormParser α} {p' : FormParser β}
  {R : α → β → Prop} {R' : γ → δ → Prop}
variable {k : α → FormParser γ}

/-- Parsers that go on by what the first ones come to, and by the parts that remain. -/
theorem bindAt {S : α × Remaining → β × Remaining → Prop} {k' : β → FormParser δ}
    (hp : ∀ r, P r → Alike d declared (p r) (p' r) S)
    (hk : ∀ x y, S x y → Alike d declared (k x.1 x.2) (k' y.1 y.2) fun x y => x.2 = y.2 ∧ Q' x.2 ∧ R' x.1 y.1) :
  Tracks d declared P Q' (p >>= k) (p' >>= k') R'
  := fun r hr => (hp r hr).bind hk

theorem bind {k' : β → FormParser δ} (hp : Tracks d declared P Q p p' R)
    (hk : ∀ a b, R a b → Tracks d declared Q Q' (k a) (k' b) R') :
  Tracks d declared P Q' (p >>= k) (p' >>= k') R'
  := by
  refine bindAt hp ?_
  rintro ⟨a, r⟩ ⟨b, _⟩ ⟨rfl, hr, hab⟩
  exact hk a b hab r hr

/-- Parsers that go on with the same value. -/
theorem bindEq {p' : FormParser α} {k' : α → FormParser δ} (hp : Tracks d declared P Q p p' Eq)
    (hk : ∀ a, Tracks d declared Q Q' (k a) (k' a) R') :
  Tracks d declared P Q' (p >>= k) (p' >>= k') R'
  := hp.bind fun a _ hab => hab ▸ hk a

theorem pure {a : α} {b : β} (h : R a b) :
  Tracks d declared P P (pure a) (pure b) R
  := fun _ hr => .pure ⟨rfl, hr, h⟩

theorem throw {e : ParseError} :
  Tracks d declared P Q (throw e) (throw e) R
  := fun _ _ => .throw

theorem get {k : Remaining → FormParser γ} {k' : Remaining → FormParser δ}
    (h : ∀ r, P r → Tracks d declared P Q (k r) (k' r) R') :
  Tracks d declared P Q (get >>= k) (get >>= k') R'
  := fun r hr => h r hr r hr

theorem set {r : Remaining} (hr : Q r) :
  Tracks d declared P Q (set r) (set r) Eq
  := fun _ _ => .pure ⟨rfl, hr, rfl⟩

theorem lift {p : Parser α} {p' : Parser β} (h : Alike d declared p p' R) :
  Tracks d declared P P (liftM p) (liftM p') R
  := fun _ hr => Alike.bind h fun _ _ hab => .pure ⟨rfl, hr, hab⟩

theorem ite {c : Prop} [Decidable c] {q : FormParser α} {q' : FormParser β} (hp : Tracks d declared P Q p p' R)
    (hq : Tracks d declared P Q q q' R) :
  Tracks d declared P Q (if c then p else q) (if c then p' else q') R
  := by
  split
  · exact hp
  · exact hq

theorem mapM {f : Part → Parser α} {f' : Part → Parser β} {parts : List Part}
    (h : ∀ part ∈ parts, Alike d declared (f part) (f' part) R) :
  Tracks d declared P P (parts.mapM fun part => (f part : FormParser α))
    (parts.mapM fun part => (f' part : FormParser β)) (List.Forall₂ R)
  := by
  induction parts with
  | nil =>
    rw [List.mapM_nil, List.mapM_nil]
    exact .pure .nil
  | cons part parts ih =>
    rw [List.forall_mem_cons] at h
    rw [List.mapM_cons, List.mapM_cons]
    exact (Tracks.lift h.1).bind fun a b hab => (ih h.2).bind fun as bs habs => .pure (.cons hab habs)

end Tracks

theorem FormParser.bind_apply (p : FormParser α) (k : α → FormParser β) (r : Remaining) (s : ParserState) :
  (p >>= k) r s = match p r s with
    | (.ok x, s') => k x.1 x.2 s'
    | (.error e, s') => (.error e, s')
  := by
  change (p r >>= fun x => k x.1 x.2) s = _
  rw [Ensures.bind_apply]
  rcases p r s with ⟨e | x, s'⟩ <;> rfl

/-- The parts of a group on their own. -/
theorem alike_within {declared : List String} {P Q : Remaining → Prop} {parts : List Part} {p : FormParser α}
    {p' : FormParser β} (hparts : P ⟨parts, closing⟩) (hp : Tracks d declared P Q p p' R) :
  Alike d declared (FormParser.within parts closing p) (FormParser.within parts closing p') R
  := Alike.bind (hp ⟨parts, closing⟩ hparts) fun _ _ hab => .pure hab.2.2

namespace FormParser

section

variable {d : Shift} {declared : List String} {opening closing : Token}

/-- The next token; if it is a closing delimiter, no parts remain. -/
theorem alike_current (r : Remaining) (hr : r.Steady d closing) :
  Alike d declared (current r) (current r) fun x y =>
    x = y ∧ x.2.Steady d closing ∧ x.1.Avoids d.symbols
      ∧ (x.1.kind.isClose = true → x.2.parts = [] ∧ x.1 = closing)
  := by
  obtain ⟨parts, closing'⟩ := r
  obtain rfl : closing' = closing := hr.closing
  cases parts with
  | nil => exact .pure ⟨rfl, hr, hr.ends.avoids _, fun _ => ⟨rfl, rfl⟩⟩
  | cons part parts =>
    obtain ⟨hlead, havoids⟩ := (hr.parts part (List.mem_cons_self ..)).lead
    exact .pure ⟨rfl, hr, havoids, fun hclose => absurd hclose (Bool.eq_false_iff.mp hlead)⟩

theorem tracks_current_avoids :
  Tracks d declared (Remaining.Steady d closing) (Remaining.Steady d closing) current current fun token token' =>
    token = token' ∧ token.Avoids d.symbols
  := by
  refine fun r hr => (alike_current r hr).mono ?_
  rintro ⟨token, r⟩ _ ⟨rfl, hr, havoids, -⟩
  exact ⟨rfl, hr, rfl, havoids⟩

theorem tracks_current :
  Tracks d declared (Remaining.Steady d closing) (Remaining.Steady d closing) current current Eq
  := fun r hr => (tracks_current_avoids r hr).mono fun _ _ h => ⟨h.1, h.2.1, h.2.2.1⟩

/-- Parsers that look at the next token and go on by it. -/
theorem tracks_bindCurrent {Q : Remaining → Prop} {k : Token → FormParser α} {k' : Token → FormParser β}
    (h : ∀ token r, r.Steady d closing → (token.kind.isClose = true → r.parts = [] ∧ token = closing) →
      Alike d declared (k token r) (k' token r) fun x y => x.2 = y.2 ∧ Q x.2 ∧ R x.1 y.1) :
  Tracks d declared (Remaining.Steady d closing) Q (current >>= k) (current >>= k') R
  := by
  refine Tracks.bindAt alike_current ?_
  rintro ⟨token, r⟩ _ ⟨rfl, hr, -, hlast⟩
  exact h token r hr hlast

theorem tracks_unexpected {Q : Remaining → Prop} (expected : String) :
  Tracks d declared (Remaining.Steady d closing) Q (unexpected expected) (unexpected expected) R
  := tracks_current.bindEq fun _ => .throw

theorem tracks_second :
  Tracks d declared (Remaining.Steady d closing) (Remaining.Steady d closing) second second Eq
  := fun _ hr => .pure ⟨rfl, hr, rfl⟩

theorem tracks_atEnd :
  Tracks d declared (Remaining.Steady d closing) (Remaining.Steady d closing) atEnd atEnd Eq
  := fun _ hr => .pure ⟨rfl, hr, rfl⟩

theorem tracks_skip :
  Tracks d declared (Remaining.Steady d closing) (Remaining.Steady d closing) skip skip Eq
  := fun _ hr => .pure ⟨rfl, ⟨fun part hpart => hr.parts part (List.mem_of_mem_drop hpart), hr.ends, hr.closing⟩, rfl⟩

theorem tracks_expr :
  Tracks d declared (Remaining.Steady d closing) (Remaining.Steady d closing) expr expr (Expr.Like d)
  := by
  refine .get fun r hr => ?_
  split
  · next part parts hparts =>
    exact tracks_skip.bindEq fun _ => .lift (hr.parts part (hparts ▸ List.mem_cons_self ..)).expr.of_nil
  · exact tracks_unexpected _

theorem tracks_body :
  Tracks d declared (Remaining.Steady d closing) (Remaining.Steady d closing) body body (List.Forall₂ (Expr.Like d))
  := .get fun _ hr => (Tracks.set hr.done).bindEq fun _ => .mapM fun part hpart => (hr.parts part hpart).expr.of_nil

theorem tracks_name (expected : String) :
  Tracks d declared (Remaining.Steady d closing) (Remaining.Steady d closing) (name expected) (name expected) Eq
  := by
  refine tracks_current.bindEq fun token => ?_
  split
  · exact tracks_skip.bindEq fun _ => .pure rfl
  · exact tracks_unexpected _

/-- The closing delimiter comes after all parts. -/
theorem tracks_close :
  Tracks d declared (Remaining.Steady d closing) (Remaining.Ended opening closing) (close opening) (close opening) Eq
  := by
  refine tracks_bindCurrent fun token r hr hlast => ?_
  by_cases hkind : token.kind = if opening.kind == .openParen then .closeParen else .closeBracket
  · rw [if_pos hkind]
    have hclose : token.kind.isClose = true := by
      rw [hkind]
      split <;> rfl
    obtain ⟨hparts, rfl⟩ := hlast hclose
    exact .pure ⟨rfl, ⟨hparts, hkind, hr.closing⟩, rfl⟩
  · rw [if_neg hkind]
    exact Tracks.ite .throw (tracks_unexpected _) r hr

theorem tracks_type :
  Tracks d declared (Remaining.Steady d closing) (Remaining.Steady d closing) type type Eq
  := by
  refine tracks_current.bindEq fun token => ?_
  split
  · refine tracks_skip.bindEq fun _ => ?_
    split
    · exact .pure rfl
    · exact .throw
  · exact tracks_unexpected _

theorem tracks_resultType :
  Tracks d declared (Remaining.Steady d closing) (Remaining.Steady d closing) resultType resultType Eq
  := tracks_current.bindEq fun _ =>
    .ite (tracks_skip.bindEq fun _ => tracks_type.bindEq fun _ => .pure rfl) (.pure rfl)

theorem tracks_typedName (expected : String) :
  Tracks d declared (Remaining.Steady d closing) (Remaining.Ended opening closing) (typedName opening expected)
    (typedName opening expected) Eq
  := (tracks_name expected).bindEq fun _ => tracks_type.bindEq fun _ => tracks_close.bindEq fun _ => .pure rfl

end

end FormParser

/-! ## Operators -/

section

variable {d : Shift} {declared : List String}

theorem alike_chain (op : BinaryOp) {first first' : Expr} (hfirst : first.Like d first') {rest rest' : List Expr}
    (h : List.Forall₂ (Expr.Like d) rest rest') :
  Alike d declared (chain op first rest) (chain op first' rest') (Expr.Like d)
  := by
  induction h generalizing first first' with
  | nil => exact .pure hfirst
  | cons hnext hrest ih =>
    rw [chain, chain, hfirst.span, hnext.span]
    exact (alike_makeExpr _ (.binary hfirst hnext)).bind fun _ _ hboth => ih hboth

theorem alike_applyOperator (symbol : String) {operands operands' : List Expr}
    (h : List.Forall₂ (Expr.Like d) operands operands') (span : Span) :
  Alike d declared (applyOperator symbol operands span) (applyOperator symbol operands' span) (Expr.Like d)
  := by
  have hcall : Alike d declared (makeExpr span (.call symbol operands)) (makeExpr span (.call symbol operands'))
      (Expr.Like d) := alike_makeExpr span (.call (.refl d symbol) h)
  unfold applyOperator
  generalize UnaryOp.ofSymbol? symbol = unary
  generalize BinaryOp.ofSymbol? symbol = binary
  cases h with
  | nil =>
    cases unary <;> cases binary <;> first
    | exact hcall
    | exact .throw
  | cons hfirst hrest =>
    cases hrest with
    | nil =>
      cases unary with
      | some op => exact alike_makeExpr span (.unary hfirst)
      | none =>
        cases binary with
        | none => exact hcall
        | some op => exact .throw
    | cons hsecond hrest =>
      cases binary with
      | none => cases unary <;> exact hcall
      | some op =>
        have hchain : Alike d declared _ _ (Expr.Like d) := (alike_chain op hfirst (.cons hsecond hrest)).bind
          fun _ _ hboth => Alike.pure (hboth.withSpan span)
        cases unary <;> exact hchain

namespace FormParser

variable {closing : Token}

theorem tracks_peekOperator :
  Tracks d declared (Remaining.Steady d closing) (Remaining.Steady d closing) peekOperator peekOperator Eq
  := by
  have hoperators : Tracks d declared (Remaining.Steady d closing) (Remaining.Steady d closing)
      (getThe ParserState) (getThe ParserState) fun s s' => s.operators.Agrees d.symbols s'.operators :=
    fun _ hr _ _ hs => .of_like hs rfl rfl rfl ⟨rfl, hr, hs.operators⟩
  refine tracks_current_avoids.bind ?_
  rintro token _ ⟨rfl, havoids⟩
  split
  · next symbol hkind =>
    refine hoperators.bind fun s s' hs => .pure ?_
    rw [hs symbol fun hsymbol => havoids symbol hsymbol hkind]
  · exact .pure rfl

theorem alike_applyBetween (symbol : String) (info : OperatorInfo) {lhs lhs' rhs rhs' : Expr} (hlhs : lhs.Like d lhs')
    (hrhs : rhs.Like d rhs') :
  Alike d declared (applyBetween symbol info lhs rhs) (applyBetween symbol info lhs' rhs') (Expr.Like d)
  := by
  unfold applyBetween
  rw [hlhs.span, hrhs.span]
  cases info.builtin with
  | some op => exact alike_makeExpr _ (.binary hlhs hrhs)
  | none => exact alike_makeExpr _ (.call (.refl d symbol) (.cons hlhs (.cons hrhs .nil)))

mutual

theorem tracks_climb : ∀ (bound : Nat) {lhs lhs' : Expr} (least : Nat), lhs.Like d lhs' →
    Tracks d declared (Remaining.Steady d closing) (Remaining.Steady d closing) (climb bound lhs least)
      (climb bound lhs' least) (Expr.Like d)
  | 0, _, _, _, hlhs => .pure hlhs
  | bound + 1, lhs, lhs', least, hlhs => by
    rw [climb, climb]
    refine tracks_current.bindEq fun token => tracks_peekOperator.bindEq fun operator => ?_
    split
    · next symbol info =>
      refine .ite (.pure hlhs) (tracks_skip.bindEq fun _ => tracks_expr.bind fun first first' hfirst => ?_)
      refine (tracks_climbRight bound info hfirst).bind fun rhs rhs' hrhs => ?_
      exact (Tracks.lift (alike_applyBetween symbol info hlhs hrhs)).bind fun both both' hboth =>
        tracks_climb bound least hboth
    · exact .throw
    · exact .pure hlhs

theorem tracks_climbRight : ∀ (bound : Nat) (info : OperatorInfo) {rhs rhs' : Expr}, rhs.Like d rhs' →
    Tracks d declared (Remaining.Steady d closing) (Remaining.Steady d closing) (climbRight bound info rhs)
      (climbRight bound info rhs') (Expr.Like d)
  | 0, _, _, _, hrhs => .pure hrhs
  | bound + 1, info, rhs, rhs', hrhs => by
    rw [climbRight, climbRight]
    refine tracks_peekOperator.bindEq fun operator => ?_
    split
    · exact (tracks_climb bound _ hrhs).bind fun next next' hnext => tracks_climbRight bound info hnext
    · exact .pure hrhs

end

theorem tracks_operatorChain {lhs lhs' : Expr} (h : lhs.Like d lhs') :
  Tracks d declared (Remaining.Steady d closing) (Remaining.Steady d closing) (operatorChain lhs)
    (operatorChain lhs') (Expr.Like d)
  := .get fun _ _ => tracks_climb _ 0 h

end FormParser

/-! ## Pattern conditionals -/

/-- Predicates that are the same up to identifiers and hidden names. -/
inductive Predicate.Like (d : Shift) : Predicate → Predicate → Prop
  | partly {symbol : String} {operands operands' : List Expr} {span : Span}
    (h : List.Forall₂ (Expr.Like d) operands operands') :
    Like d (.partly symbol operands span) (.partly symbol operands' span)
  | equals {e e' : Expr} (h : e.Like d e') : Like d (.equals e) (.equals e')

theorem alike_predicate {part : Part} (h : part.Steady d) :
  Alike d declared (Predicate.ofPart part) (Predicate.ofPart part) (Predicate.Like d)
  := by
  unfold Predicate.ofPart
  split
  · next opening symbol span expr parts closing expr' =>
    refine alike_within (Q := Remaining.Ended opening closing) h.parts.tail ?_
    exact FormParser.tracks_body.bind fun operands operands' hoperands => FormParser.tracks_close.bindEq fun _ =>
      .pure (.partly hoperands)
  · exact h.expr.of_nil.bind fun _ _ he => .pure (.equals he)

theorem alike_test {subject subject' : Expr} (hsubject : subject.Like d subject') {predicate predicate' : Predicate}
    (h : predicate.Like d predicate') :
  Alike d declared (predicate.test subject) (predicate'.test subject') (Expr.Like d)
  := by
  cases h with
  | equals he =>
    rw [Predicate.test, Predicate.test, hsubject.span, he.span]
    exact (alike_makeExpr _ hsubject.shape).bind fun _ _ hcopy => alike_makeExpr _ (.binary hcopy he)
  | partly hoperands =>
    rw [Predicate.test, Predicate.test, hsubject.span]
    exact (alike_makeExpr _ hsubject.shape).bind fun _ _ hcopy => alike_applyOperator _ (.cons hcopy hoperands) _

/-- Clauses that are the same up to identifiers and hidden names. -/
def ClausesAlike (d : Shift) (clauses clauses' : List (Predicate × Expr)) : Prop :=
  List.Forall₂ (fun c c' => c.1.Like d c'.1 ∧ c.2.Like d c'.2) clauses clauses'

theorem alike_parseClauses : ∀ parts : List Part, (∀ part ∈ parts, part.Steady d) →
    Alike d declared (parseClauses parts) (parseClauses parts) fun x y =>
      ClausesAlike d x.1 y.1 ∧ Option.Rel (Expr.Like d) x.2 y.2
  | [], _ => by
    rw [parseClauses]
    exact .pure ⟨.nil, .none⟩
  | [last], h => by
    rw [parseClauses]
    refine (alike_predicate (List.forall_mem_singleton.mp h)).bind fun predicate predicate' hpredicate => ?_
    cases hpredicate with
    | equals he => exact .pure ⟨.nil, .some he⟩
    | partly => exact .throw
  | first :: second :: rest, h => by
    rw [List.forall_mem_cons, List.forall_mem_cons] at h
    obtain ⟨hfirst, hsecond, hrest⟩ := h
    rw [parseClauses]
    refine (alike_predicate hfirst).bind fun predicate predicate' hpredicate => ?_
    refine hsecond.expr.of_nil.bind fun result result' hresult => ?_
    exact (alike_parseClauses rest hrest).bind fun x y hxy => .pure ⟨.cons ⟨hpredicate, hresult⟩ hxy.1, hxy.2⟩

theorem alike_nestClauses {subject subject' default default' : Expr} (hsubject : subject.Like d subject')
    (hdefault : default.Like d default') {clauses clauses' : List (Predicate × Expr)}
    (h : ClausesAlike d clauses clauses') :
  Alike d declared (nestClauses subject default clauses) (nestClauses subject' default' clauses') (Expr.Like d)
  := by
  induction h with
  | nil => exact .pure hdefault
  | @cons clause clause' clauses clauses' hclause hrest ih =>
    refine ih.bind fun otherwise otherwise' hotherwise => ?_
    refine (alike_test hsubject hclause.1).bind fun test test' htest => ?_
    rw [htest.span, hotherwise.span]
    exact alike_makeExpr _ (.cond htest hclause.2 (.some hotherwise))

namespace FormParser

variable {opening closing : Token}

theorem tracks_conditional {value value' : Expr} (h : value.Like d value') (opening : Token) :
  Tracks d declared (Remaining.Steady d closing) (Remaining.Ended opening closing) (conditional value opening)
    (conditional value' opening) (Expr.Like d)
  := by
  refine .get fun r hr => (Tracks.lift (alike_parseClauses r.parts hr.parts)).bind ?_
  rintro ⟨clauses, default⟩ ⟨clauses', default'⟩ ⟨hclauses, hdefault⟩
  refine (Tracks.set hr.done).bindEq fun _ => tracks_close.bindEq fun stop => ?_
  cases hdefault with
  | none => exact .throw
  | some hdefault =>
    dsimp only
    rw [h.isAtomic, h.span]
    refine .ite ?_ ?_
    · exact (Tracks.lift (alike_nestClauses h hdefault hclauses)).bind fun _ _ he => .pure (he.withSpan _)
    · refine (Tracks.lift alike_hiddenName).bind fun hidden hidden' hhidden => ?_
      refine (Tracks.lift (alike_makeExpr _ (.declare hhidden h))).bind fun binding binding' hbinding => ?_
      refine (Tracks.lift (alike_makeExpr _ (.name hhidden))).bind fun subject subject' hsubject => ?_
      refine (Tracks.lift (alike_nestClauses hsubject hdefault hclauses)).bind fun choice choice' hchoice => ?_
      exact .lift (alike_makeExpr _ (.scope (.cons hbinding (.cons (hchoice.withSpan _) .nil))))

/-! ## Special forms -/

theorem tracks_binding :
  Tracks d declared (Remaining.Steady d closing) (Remaining.Steady d closing) binding binding Eq
  := by
  refine .get fun r hr => ?_
  split
  · exact tracks_skip.bindEq fun _ => .pure rfl
  · next opening parts closing expr rest hparts =>
    have hgroup := (hr.parts (.group opening parts closing expr) (hparts ▸ List.mem_cons_self ..)).parts
    refine tracks_skip.bindEq fun _ => Tracks.bindEq (.lift (alike_within hgroup (tracks_typedName _))) ?_
    exact fun _ => .pure rfl
  · exact tracks_unexpected _

/-- A parser of the operands of a special form. -/
abbrev TracksShape (d : Shift) (declared : List String) (closing : Token) (p : FormParser (Shape Expr)) : Prop :=
  Tracks d declared (Remaining.Steady d closing) (Remaining.Steady d closing) p p (Shape.Like d (Expr.Like d))

theorem tracks_declaration (isMutable : Bool) :
  TracksShape d declared closing (declaration isMutable)
  := tracks_binding.bindEq fun _ => tracks_expr.bind fun _ _ he => .pure (.declare (.refl d _) he)

theorem tracks_assignment (head : Token) :
  TracksShape d declared closing (assignment head)
  := by
  refine tracks_expr.bind fun target target' htarget => tracks_expr.bind fun value value' hvalue => ?_
  rw [htarget.span]
  have hshape := htarget.shape
  generalize target.shape = shape at hshape ⊢
  generalize target'.shape = shape' at hshape ⊢
  cases hshape with
  | name hname => exact .pure (.assign hname hvalue)
  | element harray hindex => exact .pure (.assignElement harray hindex hvalue)
  | _ => exact .throw

theorem tracks_conditionalForm (isCheck : Bool) :
  TracksShape d declared closing (conditionalForm isCheck)
  := by
  refine tracks_expr.bind fun test test' htest => tracks_expr.bind fun first first' hfirst => ?_
  refine tracks_atEnd.bindEq fun ended => .ite (tracks_expr.bind fun second second' hsecond => ?_) ?_
  · exact .pure (.cond htest hfirst (.some hsecond))
  · exact .pure (.cond htest hfirst .none)

theorem tracks_forForm :
  TracksShape d declared closing forForm
  := by
  refine tracks_expr.bind fun init init' hinit => ?_
  rw [hinit.span]
  have hshape := hinit.shape
  generalize init.shape = shape at hshape ⊢
  generalize init'.shape = shape' at hshape ⊢
  cases hshape with
  | @declare isMutable =>
    cases isMutable with
    | true =>
      refine tracks_expr.bind fun test test' htest => tracks_expr.bind fun step step' hstep => ?_
      exact tracks_body.bind fun body body' hbody => .pure (.forLoop hinit htest hstep hbody)
    | false => exact .throw
  | _ => exact .throw

theorem alike_resource {part : Part} (h : part.Steady d) :
  Alike d declared (resource part) (resource part) (Resource.Like (Expr.Like d))
  := by
  unfold resource
  split
  · next opening parts closing expr =>
    refine alike_within (Q := Remaining.Ended opening closing) h.parts ?_
    exact (tracks_name _).bindEq fun _ => tracks_expr.bind fun _ _ hinit => tracks_close.bindEq fun _ =>
      .pure (.mk hinit)
  · exact .throw

theorem tracks_resourceForm :
  TracksShape d declared closing resourceForm
  := by
  refine .get fun r hr => ?_
  split
  · next opening parts closing expr rest hparts =>
    have hgroup := (hr.parts (.group opening parts closing expr) (hparts ▸ List.mem_cons_self ..)).parts
    have hresources : Tracks d declared (Remaining.Steady d closing) (Remaining.Ended opening closing) (do
        let r ← get
        let resources ← r.parts.mapM fun part => (resource part : FormParser (Resource Expr))
        set { r with parts := [] }
        let _ ← close opening
        return resources) _ (List.Forall₂ (Resource.Like (Expr.Like d))) :=
      .get fun r hr => (Tracks.mapM fun part hpart => alike_resource (hr.parts part hpart)).bind fun _ _ hresources =>
        (Tracks.set hr.done).bindEq fun _ => tracks_close.bindEq fun _ => .pure hresources
    refine tracks_skip.bindEq fun _ => (Tracks.lift (alike_within hgroup hresources)).bind fun _ _ hresources => ?_
    exact tracks_body.bind fun _ _ hbody => .pure (.withResources hresources hbody)
  · exact tracks_unexpected _

theorem tracks_special (head : Token) (text : String) :
  TracksShape d declared closing (special head text)
  := by
  have hbody : ∀ form : List Expr → Shape Expr, (∀ {items items'}, List.Forall₂ (Expr.Like d) items items' →
      Shape.Like d (Expr.Like d) (form items) (form items')) →
      TracksShape d declared closing (do return form (← body)) :=
    fun _ hform => tracks_body.bind fun _ _ hitems => .pure (hform hitems)
  have hexpr : ∀ form : Expr → Shape Expr, (∀ {e e'}, Expr.Like d e e' →
      Shape.Like d (Expr.Like d) (form e) (form e')) → TracksShape d declared closing (do return form (← expr)) :=
    fun _ hform => tracks_expr.bind fun _ _ he => .pure (hform he)
  have hwhile : ∀ isAsync, TracksShape d declared closing (do
      return Shape.whileLoop isAsync (← expr) (← body)) :=
    fun _ => tracks_expr.bind fun _ _ htest => tracks_body.bind fun _ _ hitems => .pure (.whileLoop htest hitems)
  unfold special
  split
  · exact tracks_declaration false
  · exact tracks_declaration true
  · exact tracks_assignment head
  · exact hbody _ .scope
  · exact tracks_conditionalForm false
  · exact tracks_conditionalForm true
  · exact hwhile false
  · exact hwhile true
  · exact tracks_forForm
  · exact hbody _ .loop
  · exact .pure .breakLoop
  · exact .pure .continueLoop
  · exact tracks_atEnd.bindEq fun _ => .ite (.pure (.ret .none)) (hexpr _ fun he => .ret (.some he))
  · exact tracks_expr.bind fun _ _ htarget => tracks_expr.bind fun _ _ hindex => .pure (.element htarget hindex)
  · exact hbody _ .array
  · exact hbody _ .tuple
  · exact hexpr _ .length
  · exact hexpr _ .alloc
  · exact hexpr _ .alloc
  · exact hexpr _ .free
  · exact hexpr _ .free
  · exact tracks_resourceForm
  · exact hbody _ .atomic
  · exact .pure (.mutex .none)
  · exact hexpr _ fun he => .mutex (.some he)
  · exact hexpr _ fun he => .mutex (.some he)
  · exact .throw

/-- A parser of a group, which takes all parts of the group. -/
abbrev TracksGroup (d : Shift) (declared : List String) (opening closing : Token) (p p' : FormParser α)
    (R : α → α → Prop) : Prop :=
  Tracks d declared (Remaining.Steady d closing) (Remaining.Ended opening closing) p p' R

theorem tracks_specialForm (head : Token) (text : String) :
  TracksGroup d declared opening closing (specialForm opening head text) (specialForm opening head text) (Expr.Like d)
  := by
  refine (tracks_special head text).bind fun shape shape' hshape => tracks_atEnd.bindEq fun ended => ?_
  refine .ite (tracks_close.bindEq fun stop => .lift (alike_makeExpr _ hshape)) ?_
  exact tracks_current.bindEq fun _ => .throw

theorem tracks_call {callee callee' : String} (h : NamesAlike d callee callee') :
  TracksGroup d declared opening closing (call opening callee) (call opening callee') (Expr.Like d)
  := tracks_body.bind fun _ _ hargs => tracks_close.bindEq fun _ => .lift (alike_makeExpr _ (.call h hargs))

theorem tracks_headForm :
  TracksGroup d declared opening closing (headForm opening) (headForm opening) (Expr.Like d)
  := by
  refine tracks_current.bindEq fun head => ?_
  split
  · exact tracks_skip.bindEq fun _ => .ite (tracks_specialForm _ _) (tracks_call (.refl d _))
  · exact tracks_skip.bindEq fun _ => tracks_body.bind fun _ _ hoperands => tracks_close.bindEq fun _ =>
      .lift (alike_applyOperator _ hoperands _)
  · exact .throw
  · exact tracks_unexpected _
  · exact .throw
  · exact .throw
  · exact .throw

theorem tracks_startsWithHead :
  Tracks d declared (Remaining.Steady d closing) (Remaining.Steady d closing) startsWithHead startsWithHead Eq
  := by
  refine tracks_current.bindEq fun token => ?_
  split
  · exact .pure rfl
  · refine tracks_second.bindEq fun kind => ?_
    split <;> exact .pure rfl
  · exact .pure rfl

theorem tracks_parenForm (hopening : opening.kind = .openParen) :
  TracksGroup d declared opening closing (parenForm opening) (parenForm opening) (Expr.Like d)
  := by
  refine tracks_startsWithHead.bindEq fun isHead => .ite tracks_headForm ?_
  refine tracks_expr.bind fun first first' hfirst => tracks_bindCurrent fun token r hr hlast => ?_
  have hshape := hfirst.shape
  generalize first.shape = shape at hshape ⊢
  generalize first'.shape = shape' at hshape ⊢
  generalize hkind : token.kind = kind at hlast ⊢
  cases kind with
  | colon => exact Tracks.bindEq tracks_skip (fun _ => tracks_conditional hfirst opening) r hr
  | symbol symbol =>
    refine Tracks.bind (tracks_operatorChain hfirst) (fun chained chained' hchained => ?_) r hr
    exact tracks_close.bindEq fun _ => .pure (hchained.withSpan _)
  | closeParen =>
    obtain ⟨hparts, rfl⟩ := hlast rfl
    have hcloses : token.Closes opening := by rw [Token.Closes, hkind, hopening]; rfl
    exact .pure ⟨rfl, ⟨hparts, hcloses, hr.closing⟩, hfirst.withSpan _⟩
  | _ =>
    cases hshape with
    | name hname => exact tracks_call hname r hr
    | _ => exact tracks_unexpected _ r hr

end FormParser

/-! ## Trees of tokens -/

theorem alike_parseGroup {opening : Token} {parts : List Part} (h : Remaining.Steady d closing ⟨parts, closing⟩) :
  Alike d declared (parseGroup opening parts closing) (parseGroup opening parts closing) (Expr.Like d)
  := by
  unfold parseGroup
  split
  · next hopening => exact alike_within h (FormParser.tracks_parenForm hopening)
  · exact alike_within h FormParser.tracks_headForm

theorem alike_parseAtom (token : Token) :
  Alike d declared (parseAtom token) (parseAtom token) (Expr.Like d)
  := by
  unfold parseAtom
  split
  iterate 4 exact alike_makeExpr _ .literal
  · exact alike_makeExpr _ (.name (.refl d _))
  · exact .throw

theorem toParts_eq_map (trees : List TokenTree) :
  toParts trees = trees.map TokenTree.toPart
  := by
  induction trees with
  | nil => rfl
  | cons tree trees ih => rw [toParts, ih, List.map_cons]

theorem steady_toParts {trees : List TokenTree} (h : ∀ tree ∈ trees, tree.toPart.Steady d) :
  ∀ part ∈ toParts trees, part.Steady d
  := by
  rw [toParts_eq_map]
  exact List.forall_mem_map.mpr h

/-- A group of trees whose expressions are parsed alike. -/
theorem steady_group {opening : Token} {trees : List TokenTree} (hopening : opening.kind.isOpen = true)
    (htrees : ∀ tree ∈ trees, tree.toPart.Steady d) (hclosing : closing.Ends) :
  (TokenTree.group opening trees closing).toPart.Steady d
  := by
  rw [TokenTree.toPart]
  exact .group hopening (steady_toParts htrees) hclosing (alike_parseGroup ⟨steady_toParts htrees, hclosing, rfl⟩)

/-- There is nothing to avoid. -/
theorem TokenTree.all_avoids_nil : ∀ tree : TokenTree, tree.All (Token.Avoids [])
  | .atom _ => .atom (List.forall_mem_nil _)
  | .group _ parts _ => .group (List.forall_mem_nil _) (fun part _ => part.all_avoids_nil) (List.forall_mem_nil _)

theorem TokenTree.Closed.steady {tree : TokenTree} (h : tree.Closed) (havoids : tree.All (Token.Avoids d.symbols)) :
  tree.toPart.Steady d
  := by
  induction h with
  | @atom token _ hclose _ =>
    cases havoids with
    | atom havoids =>
      rw [toPart]
      exact .atom hclose havoids (alike_parseAtom token)
  | group hopening _ hclosing ih =>
    cases havoids with
    | group _ havoids _ =>
      exact steady_group hopening (fun part hpart => ih part hpart (havoids part hpart)) (.inl hclosing)

theorem TokenTree.Unclosed.steady {stop : Token} {tree : TokenTree} (h : tree.Unclosed stop)
    (hstop : stop.kind = .stop) (havoids : tree.All (Token.Avoids d.symbols)) :
  tree.toPart.Steady d
  := by
  induction h with
  | last hopening hparts =>
    cases havoids with
    | group _ havoids _ =>
      exact steady_group hopening (fun part hpart => (hparts part hpart).steady (havoids part hpart)) (.inr hstop)
  | nested hopening hparts _ ih =>
    cases havoids with
    | group _ havoids _ =>
      rw [List.forall_mem_append, List.forall_mem_singleton] at havoids
      refine steady_group hopening (List.forall_mem_append.mpr ⟨?_, ?_⟩) (.inr hstop)
      · exact fun part hpart => (hparts part hpart).steady (havoids.1 part hpart)
      · exact List.forall_mem_singleton.mpr (ih havoids.2)

end

end FormCompiler
