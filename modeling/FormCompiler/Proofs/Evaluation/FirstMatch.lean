import FormCompiler.Proofs.Parsing.Climbing
import FormCompiler.Proofs.Parsing.Names

/-!
# Pattern conditionals mean the first match

`Eval.firstMatch` is what the clauses of a pattern conditional mean for a value: its predicates are tested in
order, and the result behind the first that holds is evaluated, or the default. The conditional is parsed into
a scope with a hidden constant for the value, and nested conditionals that read it. This means the same
(`exists_firstMatch`) if the text of the clauses does not use the hidden name. Parsing does not look for such
a use, and then the name refers to the constant (`hiddenName_captures`).
-/

namespace FormCompiler

/-- Whether a predicate is an operator with as many operands as it takes, the value among them. -/
def Predicate.Applies : Predicate → Prop
  | .equals _ => True
  | .partly symbol operands _ =>
    operands = [] → (UnaryOp.ofSymbol? symbol).isSome = true ∨ BinaryOp.ofSymbol? symbol = none

namespace Eval

variable {V W : Type}
variable {x : String}

/-- Combines a value with operands by a binary operator, from left to right. -/
def chain (I : Interpretation V W) (op : BinaryOp) : V → List Expr → Eval V W V
  | value, [] => return value
  | value, e :: rest => do
    let both ← perform I (.binary op) [value, ← expr I e]
    chain I op both rest

/-- Applies an operator to a value and to operands behind it. -/
def applied (I : Interpretation V W) (symbol : String) (value : V) (rest : List Expr) : Eval V W V :=
  match UnaryOp.ofSymbol? symbol, BinaryOp.ofSymbol? symbol, rest with
  | some op, _, [] => perform I (.unary op) [value]
  | _, some op, rest => chain I op value rest
  | _, none, rest => do
    notLocal symbol
    perform I (.call symbol) (value :: (← operands I rest))

/-- Tests a predicate on a value. -/
def predicate (I : Interpretation V W) (value : V) : Predicate → Eval V W V
  | .equals e => do perform I (.binary .eq) [value, ← expr I e]
  | .partly symbol rest _ => applied I symbol value rest

/-- Tests the predicates on a value in order, and evaluates the result behind the first that holds, or the default. -/
def firstMatch (I : Interpretation V W) (default : Expr) : List (Predicate × Expr) → V → Eval V W V
  | [], _ => expr I default
  | (test, result) :: clauses, value => do
    if I.isTrue (← predicate I value test) then expr I result else firstMatch I default clauses value

/-- The same, with a scope of its own for each result and for what comes after a test that fails. -/
def nestedMatch (I : Interpretation V W) (default : Expr) : List (Predicate × Expr) → V → Eval V W V
  | [], _ => expr I default
  | (test, result) :: clauses, value => do
    if I.isTrue (← predicate I value test) then inScope (expr I result)
    else inScope (nestedMatch I default clauses value)

/-! ## Tests -/

variable {I : Interpretation V W}

theorem run_makeExpr (span : Span) (shape : Shape Expr) (s : ParserState) :
  makeExpr span shape s = (.ok (.node s.nextId span shape), { s with nextId := s.nextId + 1 })
  := rfl

/-- The expression of a chain combines the values of its operands. -/
theorem exists_chain (I : Interpretation V W) (op : BinaryOp) (rest : List Expr) (first : Expr) (s : ParserState) :
  ∃ e s', FormCompiler.chain op first rest s = (.ok e, s')
    ∧ ∀ (R : EvalState V W → EvalState V W → Prop) (m : Eval V W V), Alike R m (expr I first) →
      (∀ operand ∈ rest, Alike R (expr I operand) (expr I operand)) →
      (∀ args, Alike R (perform I (.binary op) args) (perform I (.binary op) args)) →
      Alike R (m >>= fun value => chain I op value rest) (expr I e)
  := by
  induction rest generalizing first s with
  | nil =>
    refine ⟨first, s, rfl, fun R m hm _ _ => ?_⟩
    simpa only [chain, bind_pure] using hm
  | cons operand rest ih =>
    obtain ⟨e, s', hrun, hmeaning⟩ := ih (.node s.nextId (first.span.merge operand.span) (.binary op first operand))
      { s with nextId := s.nextId + 1 }
    refine ⟨e, s', ?_, fun R m hm hrest hperform => ?_⟩
    · rw [FormCompiler.chain, Ensures.bind_apply, run_makeExpr]
      exact hrun
    · rw [List.forall_mem_cons] at hrest
      have hboth := hmeaning R (do perform I (.binary op) [← m, ← expr I operand]) ?_ hrest.2 hperform
      · simpa only [chain, bind_assoc] using hboth
      · rw [expr, form]
        exact hm.bind fun _ => hrest.1.bind fun _ => hperform _

/-- The name of the value has the value where it has been declared behind locals with other names. -/
theorem alike_subject (I : Interpretation V W) (x : String) (id : Nat) (span : Span) (value : V) (n : Nat) :
  Alike (Inserted [(x, value)] n) (pure value) (expr I (.node id span (.name x)))
  := by
  have hname : ∀ {top base : List (String × V)} {world : W} {out : Except (Jump V) V} {t' : EvalState V W},
      (∀ name ∈ top.map Prod.fst, name ∉ [(x, value)].map Prod.fst) →
      (expr I (.node id span (.name x)) ⟨top ++ ([(x, value)] ++ base), world⟩ out t'
        ↔ out = .ok value ∧ t' = ⟨top ++ ([(x, value)] ++ base), world⟩) := by
    intro top base world out t' htop
    have hfront : top.lookup x = none := by
      rw [List.lookup_eq_none_iff]
      rintro ⟨other, old⟩ hentry
      refine bne_iff_ne.mpr fun (heq : x = other) => htop other (List.mem_map_of_mem hentry) ?_
      simp [heq]
    have hlookup : (top ++ ([(x, value)] ++ base)).lookup x = some value := by
      rw [List.lookup_append, hfront]
      simp
    rw [expr, form, name, local?_bind_iff, hlookup]
    exact pure_iff
  constructor
  · rintro _ _ _ _ ⟨htop, hbase⟩ ⟨rfl, rfl⟩
    exact ⟨_, .mk htop hbase, (hname htop).mpr ⟨rfl, rfl⟩⟩
  · rintro _ _ _ _ ⟨htop, hbase⟩ hrun
    obtain ⟨rfl, rfl⟩ := (hname htop).mp hrun
    exact ⟨_, .mk htop hbase, rfl, rfl⟩

/-- The text that an expression covers does not matter. -/
theorem expr_withSpan (I : Interpretation V W) (e : Expr) (span : Span) :
  expr I (e.withSpan span) = expr I e
  := by
  obtain ⟨id, old, shape⟩ := e
  rw [Expr.withSpan, expr, expr]

theorem free_of_notMem {names : List String} (h : x ∉ names) (value : V) :
  Free [(x, value)] names
  := by
  intro name hname hmem
  rw [List.map_singleton, List.mem_singleton] at hmem
  subst hmem
  exact h hname

variable {extra : List (String × V)}

theorem free_of_mem {items : List Expr} (h : Free extra (namesIn (preorders items))) :
  ∀ e ∈ items, Free extra e.names
  := by
  induction items with
  | nil => exact List.forall_mem_nil _
  | cons item items ih =>
    rw [preorders, namesIn_append, free_append] at h
    exact List.forall_mem_cons.mpr ⟨h.1, ih h.2⟩

section

variable {x symbol : String} {value : V} {subject first : Expr} {rest : List Expr} {span : Span}

theorem applyOperator_unary {op : UnaryOp} (h : UnaryOp.ofSymbol? symbol = some op) :
  applyOperator symbol [subject] span = makeExpr span (.unary op subject)
  := by
  simp [applyOperator, h]

theorem applied_unary {op : UnaryOp} (h : UnaryOp.ofSymbol? symbol = some op) :
  applied I symbol value [] = perform I (.unary op) [value]
  := by
  simp [applied, h]

theorem applyOperator_chain {op : BinaryOp} (h : BinaryOp.ofSymbol? symbol = some op) :
  applyOperator symbol (subject :: first :: rest) span
    = do return (← FormCompiler.chain op subject (first :: rest)).withSpan span
  := by
  simp [applyOperator, h]

theorem applied_chain {op : BinaryOp} (h : BinaryOp.ofSymbol? symbol = some op) :
  applied I symbol value (first :: rest) = chain I op value (first :: rest)
  := by
  simp [applied, h]

theorem applyOperator_call (h : BinaryOp.ofSymbol? symbol = none)
    (hunary : rest = [] → UnaryOp.ofSymbol? symbol = none) :
  applyOperator symbol (subject :: rest) span = makeExpr span (.call symbol (subject :: rest))
  := by
  cases rest with
  | nil => simp [applyOperator, h, hunary]
  | cons first rest => simp [applyOperator, h]

theorem applied_call (h : BinaryOp.ofSymbol? symbol = none)
    (hunary : rest = [] → UnaryOp.ofSymbol? symbol = none) :
  applied I symbol value rest
    = (do
      notLocal symbol
      perform I (.call symbol) (value :: (← operands I rest)))
  := by
  cases rest with
  | nil => simp [applied, h, hunary]
  | cons first rest => simp [applied, h]

/-- An operator in front of the name of a value and other operands applies it to the value and these. -/
theorem exists_applyOperator (I : Interpretation V W) (subject : Expr) (s : ParserState)
    (happlies : (Predicate.partly symbol rest span).Applies) (hnames : x ∉ symbol :: namesIn (preorders rest)) :
  ∃ e s', applyOperator symbol (subject :: rest) span s = (.ok e, s')
    ∧ ∀ value n, Alike (Inserted [(x, value)] n) (pure value) (expr I subject) →
      Alike (Inserted [(x, value)] n) (applied I symbol value rest) (expr I e)
  := by
  rw [List.mem_cons, not_or] at hnames
  have hcall : BinaryOp.ofSymbol? symbol = none → (rest = [] → UnaryOp.ofSymbol? symbol = none) →
      ∃ e s', applyOperator symbol (subject :: rest) span s = (.ok e, s')
        ∧ ∀ value n, Alike (Inserted [(x, value)] n) (pure value) (expr I subject) →
          Alike (Inserted [(x, value)] n) (applied I symbol value rest) (expr I e) := by
    intro hbinary hunary
    rw [applyOperator_call hbinary hunary]
    refine ⟨_, _, rfl, fun value n hsubject => ?_⟩
    rw [applied_call hbinary hunary, expr, form, operands]
    have hsymbol : Alike (W := W) (Inserted [(x, value)] n) (notLocal symbol) (notLocal symbol) :=
      .notLocal (by simpa using Ne.symm hnames.1)
    have hargs := hsubject.bind fun first => (alike_operands I (free_of_notMem hnames.2 value)).bind fun args =>
      .pure (first :: args)
    have happlied := hsymbol.bind fun _ => hargs.bind fun args => .perform I (.call symbol) args
    simpa only [bind_assoc, pure_bind] using happlied
  cases rest with
  | nil =>
    rcases hunary : UnaryOp.ofSymbol? symbol with _ | op
    · exact hcall ((happlies rfl).resolve_left (by simp [hunary])) fun _ => hunary
    · rw [applyOperator_unary hunary]
      refine ⟨_, _, rfl, fun value n hsubject => ?_⟩
      rw [applied_unary hunary, expr, form]
      simpa only [pure_bind] using hsubject.bind fun value => .perform I (.unary op) [value]
  | cons first rest =>
    rcases hbinary : BinaryOp.ofSymbol? symbol with _ | op
    · exact hcall hbinary (by simp)
    · obtain ⟨e, s', hrun, hmeaning⟩ := exists_chain I op (first :: rest) subject s
      refine ⟨e.withSpan span, s', ?_, fun value n hsubject => ?_⟩
      · rw [applyOperator_chain hbinary, Ensures.bind_apply, hrun]
        rfl
      · have hrest : ∀ operand ∈ first :: rest, Alike (Inserted [(x, value)] n) (expr I operand) (expr I operand) :=
          fun operand hoperand => alike_expr I (free_of_mem (free_of_notMem hnames.2 value) operand hoperand)
        rw [applied_chain hbinary, expr_withSpan]
        simpa only [pure_bind] using hmeaning _ _ hsubject hrest fun args => .perform I _ args

end

/-- The test that is made for a predicate means that the predicate is tested on the value. -/
theorem exists_test (I : Interpretation V W) {subject : Expr} (hsubject : subject.shape = .name x) {p : Predicate}
    (happlies : p.Applies) (hnames : x ∉ p.names) (s : ParserState) :
  ∃ test s', p.test subject s = (.ok test, s')
    ∧ ∀ value n, Alike (Inserted [(x, value)] n) (predicate I value p) (expr I test)
  := by
  have hcopy := alike_subject I x s.nextId subject.span
  rw [← hsubject] at hcopy
  cases p with
  | equals e =>
    refine ⟨_, _, rfl, fun value n => ?_⟩
    rw [expr, form, predicate]
    have htest := (hcopy value n).bind fun left => (alike_expr I (free_of_notMem hnames value)).bind fun right =>
      Alike.perform I (.binary .eq) [left, right]
    simpa only [pure_bind] using htest
  | partly symbol operands span =>
    obtain ⟨test, s', hrun, htest⟩ := exists_applyOperator I (.node s.nextId subject.span subject.shape)
      { s with nextId := s.nextId + 1 } happlies hnames
    refine ⟨test, s', ?_, fun value n => htest value n (hcopy value n)⟩
    rw [Predicate.test, Ensures.bind_apply, run_makeExpr]
    exact hrun

/-! ## Nested conditionals -/

/-- The conditionals of clauses mean that the clauses are gone through in order. -/
theorem exists_nestClauses (I : Interpretation V W) {subject default : Expr} (hsubject : subject.shape = .name x)
    (hdefault : x ∉ default.names) (clauses : List (Predicate × Expr))
    (happlies : ∀ clause ∈ clauses, clause.1.Applies) (hnames : x ∉ clauseNames clauses) (s : ParserState) :
  ∃ choice s', nestClauses subject default clauses s = (.ok choice, s')
    ∧ ∀ value n, Alike (Inserted [(x, value)] n) (nestedMatch I default clauses value) (expr I choice)
  := by
  induction clauses with
  | nil => exact ⟨default, s, rfl, fun value n => alike_expr I (free_of_notMem hdefault value)⟩
  | cons clause clauses ih =>
    obtain ⟨test, result⟩ := clause
    rw [List.forall_mem_cons] at happlies
    rw [clauseNames, List.flatMap_cons, List.mem_append, List.mem_append, not_or, not_or] at hnames
    obtain ⟨otherwise, s₁, hrun, hotherwise⟩ := ih happlies.2 hnames.2
    obtain ⟨tested, s₂, hrun', htested⟩ := exists_test I hsubject happlies.1 hnames.1.1 s₁
    refine ⟨.node s₂.nextId (tested.span.merge otherwise.span) (.cond true tested result (some otherwise)),
      { s₂ with nextId := s₂.nextId + 1 }, ?_, fun value n => ?_⟩
    · rw [nestClauses, Ensures.bind_apply, hrun]
      dsimp only
      rw [Ensures.bind_apply, hrun']
      rfl
    · rw [nestedMatch, expr, form, optional]
      exact (htested value n).bind fun _ => .ite (alike_expr I (free_of_notMem hnames.1.2 value)).inScope
        (hotherwise value n).inScope

/-- A predicate means the same if there are further locals that it has no names for. -/
theorem alike_predicate (I : Interpretation V W) {n : Nat} {p : Predicate} (h : Free extra p.names) (value : V) :
  Alike (Inserted extra n) (predicate I value p) (predicate I value p)
  := by
  cases p with
  | equals e => exact (alike_expr I h).bind fun _ => .perform I _ _
  | partly symbol rest span =>
    rw [Predicate.names, ← List.singleton_append, free_append] at h
    have hchain : ∀ {op : BinaryOp} {items : List Expr}, (∀ e ∈ items, Free extra e.names) → ∀ value,
        Alike (Inserted extra n) (chain I op value items) (chain I op value items) := by
      intro op items hitems
      induction items with
      | nil => exact fun value => .pure value
      | cons e items ih =>
        rw [List.forall_mem_cons] at hitems
        exact fun value => (alike_expr I hitems.1).bind fun _ => (Alike.perform I _ _).bind (ih hitems.2)
    rw [predicate]
    unfold applied
    split
    · exact .perform I _ _
    · exact hchain (free_of_mem h.2) value
    · exact (Alike.notLocal (free_singleton.mp h.1)).bind fun _ => (alike_operands I h.2).bind fun _ => .perform I _ _

theorem grows_expr (I : Interpretation V W) (e : Expr) :
  Grows (expr I e)
  := Alike.grows fun _ => alike_expr I fun _ _ => List.not_mem_nil

theorem grows_predicate (I : Interpretation V W) (value : V) (p : Predicate) :
  Grows (predicate I value p)
  := Alike.grows fun _ => alike_predicate I (fun _ _ => List.not_mem_nil) value

theorem grows_firstMatch (I : Interpretation V W) (default : Expr) (clauses : List (Predicate × Expr)) (value : V) :
  Grows (firstMatch I default clauses value)
  := by
  induction clauses with
  | nil => exact grows_expr I default
  | cons clause clauses ih => exact (grows_predicate I value _).bind fun _ => .ite (grows_expr I _) ih

theorem grows_nestedMatch (I : Interpretation V W) (default : Expr) (clauses : List (Predicate × Expr)) (value : V) :
  Grows (nestedMatch I default clauses value)
  := by
  induction clauses with
  | nil => exact grows_expr I default
  | cons clause clauses ih => exact (grows_predicate I value _).bind fun _ => .ite (grows_expr I _).inScope ih.inScope

/-- What comes after a test that fails needs no scope of its own if all of it is in one. -/
theorem inScope_nestedMatch (I : Interpretation V W) (default : Expr) (clauses : List (Predicate × Expr)) (value : V) :
  inScope (nestedMatch I default clauses value) = inScope (firstMatch I default clauses value)
  := by
  induction clauses with
  | nil => rfl
  | cons clause clauses ih =>
    obtain ⟨test, result⟩ := clause
    simp only [nestedMatch, firstMatch, ih, ← apply_ite inScope]
    exact inScope_bind (grows_predicate I value test) fun _ => .ite (grows_expr I result)
      (grows_firstMatch I default clauses value)

/-- The scope that a conditional is parsed into means that its value is evaluated once, and then the first match. -/
theorem expr_scope (I : Interpretation V W) {value choice default : Expr} {clauses : List (Predicate × Expr)}
    {id id' : Nat} {span span' : Span} {isMutable : Bool}
    (h : ∀ v n, Alike (Inserted [(x, v)] n) (nestedMatch I default clauses v) (expr I choice)) :
  expr I (.node id span (.scope [.node id' span' (.declare isMutable x none value), choice]))
    = inScope (expr I value >>= firstMatch I default clauses)
  := by
  have hscope : expr I (.node id span (.scope [.node id' span' (.declare isMutable x none value), choice]))
      = inScope (do declare x (← expr I value); expr I choice) := by
    simp [expr, form, statements]
  have hgrows := grows_nestedMatch I default clauses
  calc expr I (.node id span (.scope [.node id' span' (.declare isMutable x none value), choice]))
      = inScope (expr I value >>= nestedMatch I default clauses) := by
        rw [hscope, inScope_declare (grows_expr I value) h]
    _ = inScope (expr I value >>= fun v => inScope (nestedMatch I default clauses v)) :=
        (inScope_bind (grows_expr I value) hgrows).symm
    _ = inScope (expr I value >>= fun v => inScope (firstMatch I default clauses v)) := by
        simp only [inScope_nestedMatch]
    _ = inScope (expr I value >>= firstMatch I default clauses) :=
        inScope_bind (grows_expr I value) (grows_firstMatch I default clauses)

end Eval

/-! ## Groups -/

variable {V W : Type}

theorem hiddenText_inj {n m : Nat} :
  hiddenText n = hiddenText m ↔ n = m
  := by
  simp [hiddenText]

/-- The next hidden name is not yet in what has been parsed from a text without it. -/
theorem hiddenName_notMem {parts : List Part} {clauses : List (Predicate × Expr)} {default : Expr}
    {s s' : ParserState} (hparts : ∀ part ∈ parts, part.Sourced (· ≠ hiddenText s'.hiddenNames))
    (hclauses : parseClauses parts s = (.ok (clauses, some default), s')) :
  hiddenText s'.hiddenNames ∉ default.names ∧ hiddenText s'.hiddenNames ∉ clauseNames clauses
  := by
  obtain ⟨-, -, hnames⟩ := names_parseClauses parts [] hparts s (List.forall_mem_nil _) _ _ hclauses
  have hnot : hiddenText s'.hiddenNames ∉ clauseNames clauses ++ default.names := by
    intro hmem
    rcases hnames _ hmem with hne | ⟨n, hn, heq⟩
    · exact hne rfl
    · exact absurd (hiddenText_inj.mp heq) (Nat.ne_of_gt hn)
  rw [List.mem_append, not_or] at hnot
  exact hnot.symm

namespace FormParser

variable {opening closing : Token}

theorem lift_apply {α : Type} (p : Parser α) (r : Remaining) (s : ParserState) :
  (liftM p : FormParser α) r s = match p s with
    | (.ok a, s') => (.ok (a, r), s')
    | (.error e, s') => (.error e, s')
  := by
  change (p >>= fun a => (pure (a, r) : Parser (α × Remaining))) s = _
  rw [Ensures.bind_apply]
  rcases p s with ⟨e | a, s'⟩ <;> rfl

theorem close_nil (hopening : opening.kind = .openParen) (hclosing : closing.kind = .closeParen) (s : ParserState) :
  close opening ⟨[], closing⟩ s = (.ok (closing.span, ⟨[], closing⟩), s)
  := by
  have hcurrent : current ⟨[], closing⟩ s = (.ok (closing, ⟨[], closing⟩), s) := rfl
  rw [close, bind_apply, hcurrent]
  simp only [hopening, hclosing, beq_self_eq_true, if_true]
  rfl

/-- The conditional behind a value and a colon is parsed into the scope that means the first match. -/
theorem exists_conditional (I : Interpretation V W) {parts : List Part} {value default : Expr}
    {clauses : List (Predicate × Expr)} {s s' : ParserState} (hopening : opening.kind = .openParen)
    (hclosing : closing.kind = .closeParen) (hcompound : value.isAtomic = false)
    (hclauses : parseClauses parts s = (.ok (clauses, some default), s'))
    (happlies : ∀ clause ∈ clauses, clause.1.Applies) (hdefault : hiddenText s'.hiddenNames ∉ default.names)
    (hnames : hiddenText s'.hiddenNames ∉ clauseNames clauses) :
  ∃ e s'', conditional value opening ⟨parts, closing⟩ s = (.ok (e, ⟨[], closing⟩), s'')
    ∧ Eval.expr I e = Eval.inScope (Eval.expr I value >>= Eval.firstMatch I default clauses)
  := by
  let x := hiddenText s'.hiddenNames
  let span := opening.span.merge closing.span
  let subject : Expr := .node (s'.nextId + 1) value.span (.name x)
  obtain ⟨choice, s₁, hrun, hchoice⟩ := Eval.exists_nestClauses I (show subject.shape = .name x from rfl) hdefault
    clauses happlies hnames { s' with hiddenNames := s'.hiddenNames + 1, nextId := s'.nextId + 2 }
  refine ⟨.node s₁.nextId span (.scope [.node s'.nextId value.span (.declare false x none value), choice.withSpan span]),
    { s₁ with nextId := s₁.nextId + 1 }, ?_, Eval.expr_scope I fun v n => ?_⟩
  · have hget : (get : FormParser Remaining) ⟨parts, closing⟩ s = (.ok (⟨parts, closing⟩, ⟨parts, closing⟩), s) := rfl
    have hset : (set (⟨[], closing⟩ : Remaining) : FormParser PUnit) ⟨parts, closing⟩ s' = (.ok ((), ⟨[], closing⟩), s') :=
      rfl
    have hhidden : hiddenName s' = (.ok x, { s' with hiddenNames := s'.hiddenNames + 1 }) := rfl
    rw [conditional, bind_apply, hget]
    dsimp only
    rw [bind_apply, lift_apply, hclauses]
    dsimp only
    rw [bind_apply, hset]
    dsimp only
    rw [bind_apply, close_nil hopening hclosing]
    dsimp only
    rw [hcompound]
    simp only [Bool.false_eq_true, if_false]
    rw [bind_apply, lift_apply, hhidden]
    dsimp only
    rw [bind_apply, lift_apply, Eval.run_makeExpr]
    dsimp only
    rw [bind_apply, lift_apply, Eval.run_makeExpr]
    dsimp only
    rw [bind_apply, lift_apply, hrun]
    dsimp only
    rw [lift_apply, Eval.run_makeExpr]
  · rw [Eval.expr_withSpan]
    exact hchoice v n

/-- A group that starts with a form of its own and a colon is a pattern conditional. -/
theorem parenForm_conditional {colon : Token} {first : TokenTree} {parts : List Part} {s s' : ParserState}
    {value : Expr} (hcolon : colon.kind = .colon) (hfirst : first.lead.kind.isOpen = true)
    (hvalue : first.toPart.expr s = (.ok value, s')) (expr : Parser Expr) :
  parenForm opening ⟨first.toPart :: .atom colon expr :: parts, closing⟩ s
    = conditional value opening ⟨parts, closing⟩ s'
  := by
  have hlead : first.toPart.lead = first.lead := by
    cases first <;> rfl
  have hkind : first.lead.kind = .openBracket ∨ first.lead.kind = .openParen := by
    revert hfirst
    cases first.lead.kind <;> simp [TokenKind.isOpen]
  have hcurrent : ∀ (part : Part) (parts : List Part) (s : ParserState),
      current ⟨part :: parts, closing⟩ s = (.ok (part.lead, ⟨part :: parts, closing⟩), s) := fun _ _ _ => rfl
  have hskip : ∀ (part : Part) (parts : List Part) (s : ParserState),
      skip ⟨part :: parts, closing⟩ s = (.ok ((), ⟨parts, closing⟩), s) := fun _ _ _ => rfl
  have hstarts : ∀ parts, startsWithHead ⟨first.toPart :: parts, closing⟩ s
      = (.ok (false, ⟨first.toPart :: parts, closing⟩), s) := by
    intro parts
    rw [startsWithHead, bind_apply, hcurrent, hlead]
    dsimp only
    rcases hkind with hkind | hkind <;> rw [hkind] <;> rfl
  rw [parenForm, bind_apply, hstarts]
  simp only [Bool.false_eq_true, if_false]
  rw [bind_apply, expr_cons, hvalue]
  dsimp only
  rw [bind_apply, hcurrent]
  dsimp only [Part.lead]
  rw [hcolon]
  dsimp only
  rw [bind_apply, hskip]

end FormParser

/--
A conditional whose value is neither a name nor a literal is parsed, and it means that the value is evaluated, then
the predicates are tested on it in order, and then the result behind the first one that holds is evaluated, or the
default. All names refer to what they refer to where the conditional stands, if the text behind the colon does not
use the next hidden name.
-/
theorem exists_firstMatch (I : Interpretation V W) {opening colon closing : Token} {first : TokenTree}
    {rest : List TokenTree} {s s₁ s₂ : ParserState} {value default : Expr} {clauses : List (Predicate × Expr)}
    (hopening : opening.kind = .openParen) (hcolon : colon.kind = .colon) (hclosing : closing.kind = .closeParen)
    (hfirst : first.lead.kind.isOpen = true) (hvalue : first.toPart.expr s = (.ok value, s₁))
    (hcompound : value.isAtomic = false)
    (hclauses : parseClauses (toParts rest) s₁ = (.ok (clauses, some default), s₂))
    (happlies : ∀ clause ∈ clauses, clause.1.Applies)
    (hwords : ∀ tree ∈ rest, tree.All fun token => ∀ word ∈ token.kind.word?, word ≠ hiddenText s₂.hiddenNames) :
  ∃ e s₃, (TokenTree.group opening (first :: .atom colon :: rest) closing).toPart.expr s = (.ok e, s₃)
    ∧ Eval.expr I e = Eval.inScope (Eval.expr I value >>= Eval.firstMatch I default clauses)
  := by
  obtain ⟨hdefault, hnames⟩ := hiddenName_notMem (sourced_toParts rest hwords) hclauses
  obtain ⟨e, s₃, hrun, hmeaning⟩ := FormParser.exists_conditional I hopening hclosing hcompound hclauses happlies
    hdefault hnames
  refine ⟨e, s₃, ?_, hmeaning⟩
  change parseGroup opening (first.toPart :: .atom colon (parseAtom colon) :: toParts rest) closing s = _
  rw [parseGroup, if_pos hopening, FormParser.within, StateT.run, Ensures.bind_apply,
    FormParser.parenForm_conditional hcolon hfirst hvalue, hrun]
  rfl

/-! ### A value that is called for -/

/-- Integers as values, and a function `f` that gives back its argument. -/
def echoing : Interpretation Int Unit where
  perform op args _ result _ := result =
    match op, args with
    | .literal (.int n), [] => some n
    | .call "f", [n] => some n
    | .binary .eq, [n, m] => some (if n = m then 1 else 0)
    | _, _ => none
  isTrue n := n ≠ 0
  nothing := 0

/-- The text `[f 1]`. -/
def echoTree : TokenTree :=
  .group ⟨.openBracket, ⟨1, 2⟩⟩ [.atom ⟨.ident "f", ⟨2, 3⟩⟩, .atom ⟨.int 1, ⟨4, 5⟩⟩] ⟨.closeBracket, ⟨5, 6⟩⟩

/-- The expression `[f 1]`. -/
def echoCall : Expr := .node 1 ⟨1, 6⟩ (.call "f" [.node 0 ⟨4, 5⟩ (.literal (.int 1))])

/-- The text `1 name 2`, with some name. -/
def clauseTrees (name : String) : List TokenTree :=
  [.atom ⟨.int 1, ⟨9, 10⟩⟩, .atom ⟨.ident name, ⟨11, 17⟩⟩, .atom ⟨.int 2, ⟨18, 19⟩⟩]

/-- The clause in the text `1 name 2`. -/
def nameClauses (name : String) : List (Predicate × Expr) :=
  [(.equals (.node 2 ⟨9, 10⟩ (.literal (.int 1))), .node 3 ⟨11, 17⟩ (.name name))]

/-- The default in the text `1 name 2`. -/
def twoDefault : Expr := .node 4 ⟨18, 19⟩ (.literal (.int 2))

/-- The text `([f 1] : 1 name 2)`. -/
def conditionalTree (name : String) : TokenTree :=
  .group ⟨.openParen, ⟨0, 1⟩⟩ (echoTree :: .atom ⟨.colon, ⟨7, 8⟩⟩ :: clauseTrees name) ⟨.closeParen, ⟨19, 20⟩⟩

/-- The conditional `([f 1] : 1 answer 2)`. -/
theorem exists_firstMatch_answer :
  ∃ e s, (conditionalTree "answer").toPart.expr .initial = (.ok e, s)
    ∧ Eval.expr echoing e
      = Eval.inScope (Eval.expr echoing echoCall >>= Eval.firstMatch echoing twoDefault (nameClauses "answer"))
  := by
  have hvalue : echoTree.toPart.expr .initial = (.ok echoCall, { ParserState.initial with nextId := 2 }) := rfl
  have hclauses : parseClauses (toParts (clauseTrees "answer")) { ParserState.initial with nextId := 2 }
      = (.ok (nameClauses "answer", some twoDefault), { ParserState.initial with nextId := 5 }) := rfl
  refine exists_firstMatch echoing rfl rfl rfl rfl hvalue rfl hclauses ?_ ?_
  · simp [nameClauses, Predicate.Applies]
  · intro tree htree
    simp only [clauseTrees, List.mem_cons, List.not_mem_nil, or_false] at htree
    rcases htree with rfl | rfl | rfl <;> refine .atom ?_ <;> simp only [TokenKind.word?, Option.mem_def]
    · simp
    · rintro _ ⟨⟩
      decide
    · simp

/-- What `([f 1] : 1 __pat0 2)` is parsed into. -/
def capturing : Expr :=
  .node 10 ⟨0, 20⟩ (.scope
    [.node 5 ⟨1, 6⟩ (.declare false "__pat0" none echoCall),
      .node 9 ⟨0, 20⟩ (.cond true
        (.node 8 ⟨9, 10⟩ (.binary .eq (.node 7 ⟨1, 6⟩ (.name "__pat0")) (.node 2 ⟨9, 10⟩ (.literal (.int 1)))))
        (.node 3 ⟨11, 17⟩ (.name "__pat0")) (some twoDefault))])

theorem perform_echoing {op : Primitive} {args : List Int} {n : Int}
    (h : ∀ result, echoing.perform op args () result () ↔ result = some n) :
  Eval.perform echoing op args = pure n
  := by
  refine Eval.ext fun s out s' => ⟨?_, ?_⟩
  · rintro ⟨result, hresult, hlocals, rfl⟩
    rw [(h result).mp hresult]
    obtain ⟨locals, ⟨⟩⟩ := s
    obtain ⟨locals', ⟨⟩⟩ := s'
    cases hlocals
    exact ⟨rfl, rfl⟩
  · rintro ⟨rfl, rfl⟩
    exact ⟨some n, (h _).mpr rfl, rfl, rfl⟩

/-- With a local `__pat0` that is 7, the conditional `([f 1] : 1 __pat0 2)` is 1, but the first match is 7. -/
theorem hiddenName_captures :
  (∃ s, (conditionalTree "__pat0").toPart.expr .initial = (.ok capturing, s))
  ∧ (∀ out s, Eval.expr echoing capturing ⟨[("__pat0", 7)], ()⟩ out s ↔ out = .ok 1 ∧ s = ⟨[("__pat0", 7)], ()⟩)
  ∧ ∀ out s, Eval.inScope (Eval.expr echoing echoCall >>= Eval.firstMatch echoing twoDefault (nameClauses "__pat0"))
      ⟨[("__pat0", 7)], ()⟩ out s ↔ out = .ok 7 ∧ s = ⟨[("__pat0", 7)], ()⟩
  := by
  have hliteral : ∀ n : Int, Eval.perform echoing (.literal (.int n)) [] = pure n := fun _ =>
    perform_echoing fun _ => Iff.rfl
  have hcall : ∀ n : Int, Eval.perform echoing (.call "f") [n] = pure n := fun _ => perform_echoing fun _ => Iff.rfl
  have heq : ∀ n m : Int, Eval.perform echoing (.binary .eq) [n, m] = pure (if n = m then 1 else 0) := fun _ _ =>
    perform_echoing fun _ => Iff.rfl
  have htrue : echoing.isTrue 1 = true := rfl
  refine ⟨⟨{ ParserState.initial with nextId := 11, hiddenNames := 1 }, by cbv⟩, fun out s => ?_, fun out s => ?_⟩
  · simp [capturing, echoCall, Eval.expr, Eval.form, Eval.statements, Eval.operands, Eval.notLocal, Eval.name,
      Eval.local?_bind_iff, Eval.declare_bind_iff, Eval.inScope_iff, Eval.pure_iff, EvalState.leave, hliteral, hcall,
      heq, htrue]
  · simp [nameClauses, echoCall, Eval.firstMatch, Eval.predicate, Eval.expr, Eval.form, Eval.operands, Eval.notLocal,
      Eval.name, Eval.local?_bind_iff, Eval.inScope_iff, Eval.pure_iff, EvalState.leave, hliteral, hcall, heq, htrue]

end FormCompiler
