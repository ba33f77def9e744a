import FormCompiler.Parsing.Form
import FormCompiler.Proofs.Parsing.Fresh
import FormCompiler.Proofs.Parsing.Tokens

/-!
# New identifiers in forms

All forms are made of new expressions and of those that their parts stand for, each of which is used at
most once. So a tree of tokens is `Part.Sound`: it stands for an expression in which no identifier occurs
twice.
-/

namespace FormCompiler

variable {part : Part} {closing opening : Token} {α : Type} {subject : Expr}

theorem preorders_eq_flatMap (items : List Expr) :
  preorders items = items.flatMap Expr.preorder
  := by
  induction items with
  | nil => rw [preorders, List.flatMap_nil]
  | cons item items ih => rw [preorders, List.flatMap_cons, ih]

theorem resourcePreorders_eq_flatMap (bindings : List (Resource Expr)) :
  resourcePreorders bindings = bindings.flatMap fun binding => binding.init.preorder
  := by
  induction bindings with
  | nil => rw [resourcePreorders, List.flatMap_nil]
  | cons binding bindings ih => rw [resourcePreorders, List.flatMap_cons, ih]

/-! ## Parts of groups -/

/-- A parser makes an expression with new identifiers. -/
def MakesExpr (p : Parser Expr) : Prop := Makes [] p (fun _ => True) Expr.preorder

/-- A part stands for an expression with new identifiers, and so do the parts in it. -/
inductive Part.Sound : Part → Prop
  | atom {token : Token} {expr : Parser Expr} (h : MakesExpr expr) : Sound (.atom token expr)
  | group {opening closing : Token} {parts : List Part} {expr : Parser Expr}
    (hparts : ∀ part ∈ parts, Sound part) (h : MakesExpr expr) : Sound (.group opening parts closing expr)

theorem Part.Sound.expr (h : part.Sound) :
  MakesExpr part.expr
  := by
  cases h with
  | atom h => exact h
  | group _ h => exact h

/-- All parts that remain stand for expressions with new identifiers. -/
def Remaining.Sound (r : Remaining) : Prop := ∀ part ∈ r.parts, part.Sound

theorem Remaining.Sound.tail {parts : List Part} (h : Remaining.Sound ⟨part :: parts, closing⟩) :
  Remaining.Sound ⟨parts, closing⟩
  := (List.forall_mem_cons.mp h).2

/-- What a parser that works through the parts of a group makes of given expressions. -/
def Takes {α : Type} (r : Remaining) (given : List Expr) (p : FormParser α) (good : α → Prop)
    (made : α → List Expr) : Prop :=
  Makes given (p r) (fun x => x.2.Sound ∧ good x.1) fun x => made x.1

/-- A parser that makes no expressions. -/
def Keeps {α : Type} (p : FormParser α) : Prop :=
  ∀ r given, r.Sound → Takes r given p (fun _ => True) fun _ => given

namespace Takes

variable {α β : Type} {r : Remaining} {given : List Expr} {p : FormParser α} {good : α → Prop}
  {made : α → List Expr}

theorem bind {k : α → FormParser β} {good' : β → Prop} {made' : β → List Expr}
    (hp : Takes r given p good made)
    (hk : ∀ a r', r'.Sound → good a → Takes r' (made a) (k a) good' made') :
  Takes r given (p >>= k) good' made'
  := Makes.bind hp fun x hx => hk x.1 x.2 hx.1 hx.2

theorem pure {a : α} (hr : r.Sound) (hgood : good a) (hmade : (made a).Subperm given) :
  Takes r given (pure a) good made
  := Makes.pure ⟨hr, hgood⟩ hmade

theorem throw {e : ParseError} :
  Takes r given (throw e) good made
  := Makes.throw

/-- The text that an expression covers does not matter. -/
theorem pure_withSpan {e : Expr} (hr : r.Sound) (span : Span) :
  Takes r (given ++ e.preorder) (Pure.pure (e.withSpan span)) (fun _ => True) fun e => given ++ e.preorder
  := Makes.pure_of_fresh ⟨hr, trivial⟩ Fresh.withSpan

theorem get {k : Remaining → FormParser β} {good' : β → Prop} {made' : β → List Expr}
    (h : Takes r given (k r) good' made') :
  Takes r given (get >>= k) good' made'
  := h

theorem lift {p : Parser α} (h : Makes given p good made) (hr : r.Sound) :
  Takes r given (liftM p) good made
  := Makes.bind h fun _ ha => Makes.pure ⟨hr, ha⟩ (List.Subperm.refl _)

theorem unexpected (text : String) :
  Takes r given (FormParser.unexpected text) good made
  := Makes.throw

end Takes

theorem Keeps.bind {β : Type} {p : FormParser α} {k : α → FormParser β} (hp : Keeps p) (hk : ∀ a, Keeps (k a)) :
  Keeps (p >>= k)
  := fun r given hr => (hp r given hr).bind fun a r' hr' _ => hk a r' given hr'

theorem Keeps.pure (a : α) :
  Keeps (pure a)
  := fun _ _ hr => .pure hr trivial (List.Subperm.refl _)

theorem Keeps.throw (e : ParseError) :
  Keeps (throw e : FormParser α)
  := fun _ _ _ => .throw

theorem Keeps.unexpected (text : String) :
  Keeps (FormParser.unexpected text : FormParser α)
  := fun _ _ _ => .unexpected text

theorem Keeps.ite {c : Prop} [Decidable c] {p q : FormParser α} (hp : Keeps p) (hq : Keeps q) :
  Keeps (if c then p else q)
  := by
  split
  · exact hp
  · exact hq

/-- The parts of a group on their own. -/
theorem makes_within {given : List Expr} {parts : List Part} {p : FormParser α} {good : α → Prop}
    {made : α → List Expr} (h : Takes ⟨parts, closing⟩ given p good made) :
  Makes given (FormParser.within parts closing p) good made
  := Makes.bind h fun _ hx => Makes.pure hx.2 (List.Subperm.refl _)

namespace FormParser

variable {r : Remaining} {given : List Expr}

theorem keeps_current :
  Keeps current
  := fun _ _ hr => .get (.pure hr trivial (List.Subperm.refl _))

theorem keeps_second :
  Keeps second
  := fun _ _ hr => .get (.pure hr trivial (List.Subperm.refl _))

theorem keeps_atEnd :
  Keeps atEnd
  := fun _ _ hr => .get (.pure hr trivial (List.Subperm.refl _))

theorem keeps_skip :
  Keeps skip
  := fun _ _ hr => Makes.pure ⟨fun part hpart => hr part (List.mem_of_mem_drop hpart), trivial⟩ (List.Subperm.refl _)

theorem keeps_name (expected : String) :
  Keeps (name expected)
  := by
  refine keeps_current.bind fun token => ?_
  split
  · exact keeps_skip.bind fun _ => .pure _
  · exact .unexpected _

theorem keeps_close (opening : Token) :
  Keeps (close opening)
  := by
  refine keeps_current.bind fun token => ?_
  exact .ite (.pure _) (.ite (.throw _) (.unexpected _))

theorem keeps_type :
  Keeps type
  := by
  refine keeps_current.bind fun token => ?_
  split
  · refine keeps_skip.bind fun _ => ?_
    split
    · exact .pure _
    · exact .throw _
  · exact .unexpected _

theorem keeps_resultType :
  Keeps resultType
  := by
  refine keeps_current.bind fun token => ?_
  split
  · exact keeps_skip.bind fun _ => keeps_type.bind fun _ => .pure _
  · exact .pure _

theorem keeps_typedName (opening : Token) (expected : String) :
  Keeps (typedName opening expected)
  := (keeps_name expected).bind fun _ => keeps_type.bind fun _ => (keeps_close opening).bind fun _ => .pure _

theorem keeps_takeAll (r' : Remaining) (hr' : r'.Sound) :
  Keeps (set r')
  := fun _ _ _ => Makes.pure ⟨hr', trivial⟩ (List.Subperm.refl _)

theorem takes_expr (hr : r.Sound) (given : List Expr) :
  Takes r given expr (fun _ => True) fun e => given ++ e.preorder
  := by
  refine .get ?_
  split
  · next part parts hparts =>
    refine (keeps_skip r given hr).bind fun _ r' hr' _ => .lift ?_ hr'
    exact (hr part (by rw [hparts]; exact List.mem_cons_self ..)).expr.frame given
  · exact .unexpected _

/-- What is made of several parts, one after the other. -/
theorem takes_mapM {α : Type} {f : Part → Parser α} {g : α → List Expr} {parts : List Part}
    (hparts : ∀ part ∈ parts, Makes [] (f part) (fun _ => True) g) (hr : r.Sound) (given : List Expr) :
  Takes r given (parts.mapM fun part => (f part : FormParser α)) (fun _ => True)
    fun made => given ++ made.flatMap g
  := by
  induction parts generalizing r given with
  | nil =>
    rw [List.mapM_nil]
    exact .pure hr trivial (by rw [List.flatMap_nil, List.append_nil])
  | cons part parts ih =>
    rw [List.forall_mem_cons] at hparts
    rw [List.mapM_cons]
    refine Takes.bind (.lift (hparts.1.frame given) hr) fun a r₁ hr₁ _ => ?_
    refine (ih hparts.2 hr₁ (given ++ g a)).bind fun made r₂ hr₂ _ => .pure hr₂ trivial ?_
    rw [List.flatMap_cons, List.append_assoc]

theorem takes_body (hr : r.Sound) (given : List Expr) :
  Takes r given body (fun _ => True) fun items => given ++ preorders items
  := by
  refine .get ((keeps_takeAll _ (by simp [Remaining.Sound]) r given hr).bind fun _ r₁ hr₁ _ => ?_)
  simpa only [preorders_eq_flatMap] using takes_mapM (fun part hpart => (hr part hpart).expr) hr₁ given

end FormParser

/-! ## Operators -/

/-- Two lists that follow another one may change places. -/
theorem perm_append_swap (a b c : List α) :
  (a ++ (b ++ c)).Perm (a ++ c ++ b)
  := by
  rw [List.append_assoc]
  exact List.perm_append_comm.append_left a

theorem makes_chain (op : BinaryOp) (first : Expr) (rest : List Expr) (given : List Expr) :
  Makes (given ++ (first.preorder ++ preorders rest)) (chain op first rest) (fun _ => True)
    fun e => given ++ e.preorder
  := by
  induction rest generalizing first with
  | nil => exact .pure trivial (by rw [preorders, List.append_nil])
  | cons next rest ih =>
    have hboth := makes_makeExpr (given ++ preorders rest) (first.span.merge next.span)
      (.binary op first next) trivial
    rw [shapePreorder] at hboth
    refine Makes.bind (hboth.of_subperm ?_) fun both _ => (ih both).of_subperm (perm_append_swap _ _ _).subperm
    rw [preorders, ← List.append_assoc first.preorder]
    exact (perm_append_swap _ _ _).symm.subperm

theorem makes_applyOperator (symbol : String) (operands : List Expr) (span : Span) (given : List Expr) :
  Makes (given ++ preorders operands) (applyOperator symbol operands span) (fun _ => True)
    fun e => given ++ e.preorder
  := by
  have hcall : Makes (given ++ preorders operands) (makeExpr span (.call symbol operands)) (fun _ => True)
      fun e => given ++ e.preorder := by
    have hmade := makes_makeExpr given span (.call symbol operands) trivial
    rwa [shapePreorder] at hmade
  unfold applyOperator
  split
  · next op operand _ =>
    have hmade := makes_makeExpr given span (.unary op operand) trivial
    rw [shapePreorder] at hmade
    rwa [preorders, preorders, List.append_nil]
  · next op first second rest _ =>
    rw [preorders]
    refine (makes_chain op first (second :: rest) given).bind fun e _ => Makes.pure_of_fresh trivial ?_
    exact Fresh.withSpan
  · exact .throw
  · exact hcall

namespace FormParser

variable {r : Remaining}

theorem keeps_getState :
  Keeps (getThe ParserState)
  := by
  intro r given hr low s _ hgiven
  refine ⟨Nat.le_refl _, ?_⟩
  rintro _ ⟨⟩
  exact ⟨⟨hr, trivial⟩, hgiven⟩

theorem keeps_peekOperator :
  Keeps peekOperator
  := by
  refine keeps_current.bind fun token => ?_
  split
  · exact keeps_getState.bind fun _ => .pure _
  · exact .pure _

theorem makes_applyBetween (symbol : String) (info : OperatorInfo) (lhs rhs : Expr) (given : List Expr) :
  Makes (given ++ (lhs.preorder ++ rhs.preorder)) (applyBetween symbol info lhs rhs) (fun _ => True)
    fun e => given ++ e.preorder
  := by
  unfold applyBetween
  cases info.builtin with
  | some op =>
    have hmade := makes_makeExpr given (lhs.span.merge rhs.span) (.binary op lhs rhs) trivial
    rwa [shapePreorder] at hmade
  | none =>
    have hmade := makes_makeExpr given (lhs.span.merge rhs.span) (.call symbol [lhs, rhs]) trivial
    rwa [shapePreorder, preorders, preorders, preorders, List.append_nil] at hmade

mutual

/-- Chains of operators are made of their operands. -/
theorem takes_climb : ∀ (bound : Nat) (lhs : Expr) (least : Nat) (r : Remaining) (given : List Expr), r.Sound →
    Takes r (given ++ lhs.preorder) (climb bound lhs least) (fun _ => True) fun e => given ++ e.preorder
  | 0, lhs, least, r, given, hr => .pure hr trivial (List.Subperm.refl _)
  | bound + 1, lhs, least, r, given, hr => by
    rw [climb]
    refine (keeps_current r _ hr).bind fun token r₁ hr₁ _ => (keeps_peekOperator r₁ _ hr₁).bind
      fun operator r₂ hr₂ _ => ?_
    split
    · next symbol info =>
      split
      · exact .pure hr₂ trivial (List.Subperm.refl _)
      · refine (keeps_skip r₂ _ hr₂).bind fun _ r₃ hr₃ _ => (takes_expr hr₃ _).bind fun first r₄ hr₄ _ => ?_
        refine (takes_climbRight bound info first r₄ _ hr₄).bind fun rhs r₅ hr₅ _ => ?_
        have hboth := makes_applyBetween symbol info lhs rhs given
        rw [← List.append_assoc] at hboth
        exact (Takes.lift hboth hr₅).bind fun both r₆ hr₆ _ => takes_climb bound both least r₆ given hr₆
    · exact .throw
    · exact .pure hr₂ trivial (List.Subperm.refl _)

theorem takes_climbRight : ∀ (bound : Nat) (info : OperatorInfo) (rhs : Expr) (r : Remaining)
    (given : List Expr), r.Sound →
    Takes r (given ++ rhs.preorder) (climbRight bound info rhs) (fun _ => True) fun e => given ++ e.preorder
  | 0, info, rhs, r, given, hr => .pure hr trivial (List.Subperm.refl _)
  | bound + 1, info, rhs, r, given, hr => by
    rw [climbRight]
    refine (keeps_peekOperator r _ hr).bind fun operator r₁ hr₁ _ => ?_
    split
    · next least _ =>
      exact (takes_climb bound rhs least r₁ given hr₁).bind fun next r₂ hr₂ _ =>
        takes_climbRight bound info next r₂ given hr₂
    · exact .pure hr₁ trivial (List.Subperm.refl _)

end

theorem takes_operatorChain (hr : r.Sound) (lhs : Expr) (given : List Expr) :
  Takes r (given ++ lhs.preorder) (operatorChain lhs) (fun _ => True) fun e => given ++ e.preorder
  := .get (takes_climb _ lhs 0 r given hr)

end FormParser

/-! ## Pattern conditionals -/

/-- The expressions in a predicate. -/
def Predicate.parts : Predicate → List Expr
  | partly _ operands _ => preorders operands
  | equals e => e.preorder

/-- The expressions in the clauses of a pattern conditional. -/
def clauseParts (clauses : List (Predicate × Expr)) : List Expr :=
  clauses.flatMap fun clause => clause.1.parts ++ clause.2.preorder

theorem Part.Sound.parts {parts : List Part} {expr : Parser Expr}
    (h : Part.Sound (.group opening parts closing expr)) :
  Remaining.Sound ⟨parts, closing⟩
  := by
  cases h with
  | group hparts _ => exact hparts

theorem makes_predicate (hpart : part.Sound) (given : List Expr) :
  Makes given (Predicate.ofPart part) (fun _ => True) fun predicate => given ++ predicate.parts
  := by
  unfold Predicate.ofPart
  split
  · next opening symbol span first parts closing expr =>
    refine makes_within ((FormParser.takes_body hpart.parts.tail given).bind fun operands r₁ hr₁ _ => ?_)
    exact (FormParser.keeps_close opening r₁ _ hr₁).bind fun _ r₂ hr₂ _ =>
      .pure hr₂ trivial (List.Subperm.refl _)
  · exact (hpart.expr.frame given).bind fun e _ => .pure trivial (List.Subperm.refl _)

theorem Expr.shapePreorder_of_isAtomic {e : Expr} (h : e.isAtomic = true) :
  shapePreorder e.shape = []
  := by
  unfold isAtomic at h
  split at h
  · next hshape => simp [hshape, shapePreorder]
  · next hshape => simp [hshape, shapePreorder]
  · cases h

/-- A name or a literal can be repeated. -/
theorem makes_repeated (hsubject : subject.isAtomic = true) (hshape : subject.shape.IsParsed) (given : List Expr) :
  Makes given (makeExpr subject.span subject.shape) (fun _ => True) fun e => given ++ e.preorder
  := by
  have hmade := makes_makeExpr given subject.span _ hshape
  rwa [Expr.shapePreorder_of_isAtomic hsubject, List.append_nil] at hmade

theorem makes_test (hsubject : subject.isAtomic = true) (hshape : subject.shape.IsParsed) (predicate : Predicate)
    (given : List Expr) :
  Makes (given ++ predicate.parts) (predicate.test subject) (fun _ => True) fun e => given ++ e.preorder
  := by
  cases predicate with
  | equals e =>
    refine (makes_repeated hsubject hshape _).bind fun copy _ => ?_
    have hmade := makes_makeExpr given e.span (.binary .eq copy e) trivial
    rw [shapePreorder] at hmade
    exact hmade.of_subperm (perm_append_swap _ _ _).subperm
  | partly symbol operands span =>
    refine (makes_repeated hsubject hshape _).bind fun copy _ => ?_
    refine (makes_applyOperator symbol (copy :: operands) span given).of_subperm ?_
    rw [preorders]
    exact (perm_append_swap _ _ _).subperm

theorem makes_parseClauses : ∀ (parts : List Part) (given : List Expr), (∀ part ∈ parts, part.Sound) →
    Makes given (parseClauses parts) (fun _ => True)
      fun clauses => given ++ (clauseParts clauses.1 ++ optionPreorder clauses.2)
  | [], given, _ => by
    rw [parseClauses]
    exact .pure trivial (List.Perm.of_eq (by simp [clauseParts, optionPreorder])).subperm
  | [last], given, hparts => by
    rw [parseClauses]
    refine (makes_predicate (List.forall_mem_singleton.mp hparts) given).bind fun predicate _ => ?_
    cases predicate with
    | equals e => exact .pure trivial (List.Subperm.refl _)
    | partly symbol operands span => exact .throw
  | first :: second :: rest, given, hparts => by
    obtain ⟨hfirst, hsecond, hrest⟩ : first.Sound ∧ second.Sound ∧ ∀ part ∈ rest, part.Sound := by
      simpa using hparts
    rw [parseClauses]
    refine (makes_predicate hfirst given).bind fun predicate _ => (hsecond.expr.frame _).bind fun result _ =>
      (makes_parseClauses rest _ hrest).bind fun clauses _ => .pure trivial (List.Perm.of_eq ?_).subperm
    simp [clauseParts, List.append_assoc]

/-- Nested conditionals are made of the clauses and the default. -/
theorem makes_nestClauses (hsubject : subject.isAtomic = true) (hshape : subject.shape.IsParsed) (default : Expr)
    (clauses : List (Predicate × Expr)) (given : List Expr) :
  Makes (given ++ (clauseParts clauses ++ default.preorder)) (nestClauses subject default clauses)
    (fun _ => True) fun e => given ++ e.preorder
  := by
  induction clauses generalizing given with
  | nil => exact .pure trivial (List.Perm.of_eq (by simp [clauseParts])).subperm
  | cons clause clauses ih =>
    obtain ⟨predicate, result⟩ := clause
    have hotherwise := ih (given ++ (predicate.parts ++ result.preorder))
    have hparts : given ++ (clauseParts ((predicate, result) :: clauses) ++ default.preorder)
        = given ++ (predicate.parts ++ result.preorder) ++ (clauseParts clauses ++ default.preorder) := by
      simp [clauseParts, List.append_assoc]
    rw [← hparts] at hotherwise
    refine hotherwise.bind fun otherwise _ => ?_
    refine Makes.bind ((makes_test hsubject hshape predicate
      (given ++ (result.preorder ++ otherwise.preorder))).of_subperm ?_) fun test _ => ?_
    · rw [List.append_assoc given, List.append_assoc given, List.append_assoc predicate.parts]
      exact (List.perm_append_comm.append_left given).subperm
    · have hmade := makes_makeExpr given (test.span.merge otherwise.span)
        (.cond true test result (some otherwise)) trivial
      rw [shapePreorder, optionPreorder, List.append_assoc] at hmade
      exact hmade.of_subperm (perm_append_swap _ _ _).subperm

namespace FormParser

variable {r : Remaining}

theorem takes_conditional (hr : r.Sound) (value : Expr) (opening : Token) (given : List Expr) :
  Takes r (given ++ value.preorder) (conditional value opening) (fun _ => True) fun e => given ++ e.preorder
  := by
  refine .get (Takes.bind (Takes.lift (makes_parseClauses r.parts _ hr) hr) fun clauses r₁ hr₁ _ => ?_)
  obtain ⟨clauses, default⟩ := clauses
  refine (keeps_takeAll _ (by simp [Remaining.Sound]) r₁ _ hr₁).bind fun _ r₂ hr₂ _ =>
    (keeps_close opening r₂ _ hr₂).bind fun stop r₃ hr₃ _ => ?_
  cases default with
  | none => exact .throw
  | some default =>
    dsimp only
    rw [optionPreorder]
    have hclauses : (given ++ (clauseParts clauses ++ default.preorder)).Subperm
        (given ++ value.preorder ++ (clauseParts clauses ++ default.preorder)) :=
      ((List.sublist_append_left given value.preorder).append_right _).subperm
    split
    · next hatomic =>
      have hchoice := Makes.of_shapes fun hshapes => (makes_nestClauses hatomic
        (hshapes value (by simp [Expr.mem_preorder])) default clauses given).of_subperm hclauses
      exact Takes.bind (Takes.lift hchoice hr₃) fun e r₄ hr₄ _ => .pure_withSpan hr₄ _
    · refine Takes.bind (Takes.lift (makes_hiddenName _) hr₃) fun hidden r₄ hr₄ _ => ?_
      -- the value is bound first, and its name is what the clauses repeat
      have hbinding := makes_makeExpr (given ++ (clauseParts clauses ++ default.preorder)) value.span
        (.declare false hidden none value) trivial
      rw [shapePreorder] at hbinding
      refine Takes.bind (Takes.lift (hbinding.of_subperm ?_) hr₄) fun binding r₅ hr₅ _ => ?_
      · rw [List.append_assoc given value.preorder]
        exact (perm_append_swap _ _ _).symm.subperm
      have hsubject := makes_makeExpr_shape (given ++ (clauseParts clauses ++ default.preorder)
        ++ binding.preorder) value.span (.name hidden) trivial
      rw [shapePreorder, List.append_nil] at hsubject
      refine Takes.bind (Takes.lift hsubject hr₅) fun subject r₆ hr₆ hname => ?_
      have hatomic : subject.isAtomic = true := by rw [Expr.isAtomic, hname]
      have hshape : subject.shape.IsParsed := by rw [hname]; trivial
      refine Takes.bind (Takes.lift ((makes_nestClauses hatomic hshape default clauses
        (given ++ binding.preorder)).of_subperm ?_) hr₆) fun choice r₇ hr₇ _ => ?_
      · rw [List.append_assoc given (clauseParts clauses ++ default.preorder)]
        exact (perm_append_swap _ _ _).symm.subperm.trans (List.sublist_append_left ..).subperm
      have hscope := makes_makeExpr given (opening.span.merge stop)
        (.scope [binding, choice.withSpan (opening.span.merge stop)]) trivial
      rw [shapePreorder, preorders, preorders, preorders, List.append_nil, ← List.append_assoc] at hscope
      exact Takes.lift (hscope.of_fresh Fresh.withSpan) hr₇

/-! ## Special forms -/

theorem keeps_within {α : Type} {parts : List Part} {closing : Token} {p : FormParser α}
    (hparts : ∀ part ∈ parts, part.Sound) (hp : Keeps p) :
  Keeps (liftM (within parts closing p) : FormParser α)
  := fun _ given hr => .lift (makes_within (hp ⟨parts, closing⟩ given hparts)) hr

theorem keeps_binding :
  Keeps binding
  := by
  intro r given hr
  refine .get ?_
  split
  · exact (keeps_skip.bind fun _ => .pure _) r given hr
  · next opening parts closing expr rest heq =>
    have hparts := (hr (.group opening parts closing expr) (by rw [heq]; exact List.mem_cons_self ..)).parts
    exact (keeps_skip.bind fun _ => (keeps_within hparts (keeps_typedName _ _)).bind fun _ => .pure _) r given hr
  · exact .unexpected _

theorem takes_declaration (hr : r.Sound) (isMutable : Bool) (given : List Expr) :
  Takes r given (declaration isMutable) Shape.IsParsed fun shape => given ++ shapePreorder shape
  := by
  refine (keeps_binding r given hr).bind fun named r₁ hr₁ _ => (takes_expr hr₁ given).bind fun init r₂ hr₂ _ => ?_
  exact .pure hr₂ (by simp [Shape.IsParsed]) (by rw [shapePreorder])

theorem takes_assignment (hr : r.Sound) (head : Token) (given : List Expr) :
  Takes r given (assignment head) Shape.IsParsed fun shape => given ++ shapePreorder shape
  := by
  refine (takes_expr hr given).bind fun target r₁ hr₁ _ => (takes_expr hr₁ _).bind fun value r₂ hr₂ _ => ?_
  obtain ⟨id, span, shape⟩ := target
  cases shape with
  | name text =>
    refine .pure hr₂ (by simp [Shape.IsParsed]) ?_
    rw [shapePreorder]
    exact ((List.sublist_append_left ..).append_right _).subperm
  | element array index =>
    refine .pure hr₂ (by simp [Shape.IsParsed]) ?_
    rw [shapePreorder, Expr.preorder, shapePreorder, ← List.append_assoc]
    exact (((List.sublist_cons_self ..).append_left _).append_right _).subperm
  | _ => exact .throw

theorem takes_conditionalForm (hr : r.Sound) (isCheck : Bool) (given : List Expr) :
  Takes r given (conditionalForm isCheck) Shape.IsParsed fun shape => given ++ shapePreorder shape
  := by
  refine (takes_expr hr given).bind fun test r₁ hr₁ _ => (takes_expr hr₁ _).bind fun thenBranch r₂ hr₂ _ =>
    (keeps_atEnd r₂ _ hr₂).bind fun ended r₃ hr₃ _ => ?_
  split
  · refine (takes_expr hr₃ _).bind fun elseBranch r₄ hr₄ _ => .pure hr₄ (by simp [Shape.IsParsed]) ?_
    rw [shapePreorder, optionPreorder, List.append_assoc, List.append_assoc, List.append_assoc]
  · refine .pure hr₃ (by simp [Shape.IsParsed]) ?_
    rw [shapePreorder, optionPreorder, List.append_nil, List.append_assoc]

theorem takes_forForm (hr : r.Sound) (given : List Expr) :
  Takes r given forForm Shape.IsParsed fun shape => given ++ shapePreorder shape
  := by
  refine (takes_expr hr given).bind fun init r₁ hr₁ _ => ?_
  split
  · refine (takes_expr hr₁ _).bind fun test r₂ hr₂ _ => (takes_expr hr₂ _).bind fun step r₃ hr₃ _ =>
      (takes_body hr₃ _).bind fun items r₄ hr₄ _ => .pure hr₄ (by simp [Shape.IsParsed]) ?_
    rw [shapePreorder, ← List.append_assoc, ← List.append_assoc, ← List.append_assoc, List.append_assoc _ _ step.preorder]
    exact (perm_append_swap _ _ _).subperm
  · exact .throw

theorem makes_resource {part : Part} (hpart : part.Sound) :
  Makes [] (resource part) (fun _ => True) fun binding => binding.init.preorder
  := by
  unfold resource
  split
  · refine makes_within ((keeps_name _ _ _ hpart.parts).bind fun _ r₁ hr₁ _ =>
      (takes_expr hr₁ []).bind fun init r₂ hr₂ _ => (keeps_close _ r₂ _ hr₂).bind fun _ r₃ hr₃ _ => ?_)
    exact .pure hr₃ trivial (List.Subperm.refl _)
  · exact .throw

theorem takes_resourceForm (hr : r.Sound) (given : List Expr) :
  Takes r given resourceForm Shape.IsParsed fun shape => given ++ shapePreorder shape
  := by
  refine .get ?_
  split
  · next opening parts closing expr rest heq =>
    have hparts := (hr (.group opening parts closing expr) (by rw [heq]; exact List.mem_cons_self ..)).parts
    have hresources : Takes ⟨parts, closing⟩ given (do
        let r ← get
        let resources ← r.parts.mapM fun part => (resource part : FormParser (Resource Expr))
        set { r with parts := [] }
        let _ ← close opening
        return resources) (fun _ => True) fun bindings => given ++ resourcePreorders bindings := by
      simp only [resourcePreorders_eq_flatMap]
      refine .get ((takes_mapM (fun part hpart => makes_resource (hparts part hpart)) hparts given).bind
        fun bindings r₁ hr₁ _ => ?_)
      exact (keeps_takeAll _ (by simp [Remaining.Sound]) r₁ _ hr₁).bind fun _ r₂ hr₂ _ =>
        (keeps_close opening r₂ _ hr₂).bind fun _ r₃ hr₃ _ => .pure hr₃ trivial (List.Subperm.refl _)
    refine (keeps_skip r given hr).bind fun _ r₁ hr₁ _ => Takes.bind (.lift (makes_within hresources) hr₁)
      fun bindings r₂ hr₂ _ => (takes_body hr₂ _).bind fun items r₃ hr₃ _ => ?_
    exact .pure hr₃ (by simp [Shape.IsParsed]) (by rw [shapePreorder, List.append_assoc])
  · exact .unexpected _

/-- The operands of a special form are in it once. -/
theorem takes_special (hr : r.Sound) (head : Token) (text : String) (given : List Expr) :
  Takes r given (special head text) Shape.IsParsed fun shape => given ++ shapePreorder shape
  := by
  have hnone : ∀ {shape : Shape Expr}, shape.IsParsed → shapePreorder shape = [] →
      Takes r given (pure shape) Shape.IsParsed fun shape => given ++ shapePreorder shape := by
    intro shape hshape hparts
    exact .pure hr hshape (by rw [hparts, List.append_nil])
  have hbody : ∀ {form : List Expr → Shape Expr}, (∀ items, (form items).IsParsed) →
      (∀ items, shapePreorder (form items) = preorders items) →
      Takes r given (do return form (← body)) Shape.IsParsed fun shape => given ++ shapePreorder shape := by
    intro form hshape hparts
    refine (takes_body hr given).bind fun items r₁ hr₁ _ => .pure hr₁ (hshape items) ?_
    rw [hparts]
  have hexpr : ∀ {form : Expr → Shape Expr}, (∀ e, (form e).IsParsed) →
      (∀ e, shapePreorder (form e) = e.preorder) →
      Takes r given (do return form (← expr)) Shape.IsParsed fun shape => given ++ shapePreorder shape := by
    intro form hshape hparts
    refine (takes_expr hr given).bind fun e r₁ hr₁ _ => .pure hr₁ (hshape e) ?_
    rw [hparts]
  have hwhile : ∀ isAsync, Takes r given (do return .whileLoop isAsync (← expr) (← body)) Shape.IsParsed
      fun shape => given ++ shapePreorder shape := by
    intro isAsync
    refine (takes_expr hr given).bind fun test r₁ hr₁ _ => (takes_body hr₁ _).bind fun items r₂ hr₂ _ => ?_
    exact .pure hr₂ (by simp [Shape.IsParsed]) (by rw [shapePreorder, List.append_assoc])
  unfold special
  split
  · exact takes_declaration hr false given
  · exact takes_declaration hr true given
  · exact takes_assignment hr head given
  · exact hbody (by simp [Shape.IsParsed]) (by simp [shapePreorder])
  · exact takes_conditionalForm hr false given
  · exact takes_conditionalForm hr true given
  · exact hwhile false
  · exact hwhile true
  · exact takes_forForm hr given
  · exact hbody (by simp [Shape.IsParsed]) (by simp [shapePreorder])
  · exact hnone (by simp [Shape.IsParsed]) (by simp [shapePreorder])
  · exact hnone (by simp [Shape.IsParsed]) (by simp [shapePreorder])
  · refine (keeps_atEnd r given hr).bind fun ended r₁ hr₁ _ => ?_
    split
    · exact .pure hr₁ (by simp [Shape.IsParsed]) (by rw [shapePreorder, optionPreorder, List.append_nil])
    · refine (takes_expr hr₁ given).bind fun e r₂ hr₂ _ => .pure hr₂ (by simp [Shape.IsParsed]) ?_
      rw [shapePreorder, optionPreorder]
  · refine (takes_expr hr given).bind fun target r₁ hr₁ _ => (takes_expr hr₁ _).bind fun index r₂ hr₂ _ => ?_
    exact .pure hr₂ (by simp [Shape.IsParsed]) (by rw [shapePreorder, List.append_assoc])
  · exact hbody (by simp [Shape.IsParsed]) (by simp [shapePreorder])
  · exact hbody (by simp [Shape.IsParsed]) (by simp [shapePreorder])
  · exact hexpr (by simp [Shape.IsParsed]) (by simp [shapePreorder])
  · exact hexpr (by simp [Shape.IsParsed]) (by simp [shapePreorder])
  · exact hexpr (by simp [Shape.IsParsed]) (by simp [shapePreorder])
  · exact hexpr (by simp [Shape.IsParsed]) (by simp [shapePreorder])
  · exact hexpr (by simp [Shape.IsParsed]) (by simp [shapePreorder])
  · exact takes_resourceForm hr given
  · exact hbody (by simp [Shape.IsParsed]) (by simp [shapePreorder])
  · exact hnone (by simp [Shape.IsParsed]) (by simp [shapePreorder, optionPreorder])
  · exact hexpr (by simp [Shape.IsParsed]) (by simp [shapePreorder, optionPreorder])
  · exact hexpr (by simp [Shape.IsParsed]) (by simp [shapePreorder, optionPreorder])
  · exact .throw

theorem takes_specialForm (hr : r.Sound) (opening head : Token) (text : String) (given : List Expr) :
  Takes r given (specialForm opening head text) (fun _ => True) fun e => given ++ e.preorder
  := by
  refine (takes_special hr head text given).bind fun shape r₁ hr₁ hshape => ?_
  have hclose : ∀ r, r.Sound → Takes r (given ++ shapePreorder shape) (do
      let stop ← close opening
      makeExpr (opening.span.merge stop) shape) (fun _ => True) fun e => given ++ e.preorder :=
    fun r hr => (keeps_close opening r _ hr).bind fun _ r₂ hr₂ _ => .lift (makes_makeExpr given _ _ hshape) hr₂
  refine (keeps_atEnd r₁ _ hr₁).bind fun ended r₂ hr₂ _ => ?_
  split
  · exact hclose r₂ hr₂
  · exact (keeps_current r₂ _ hr₂).bind fun _ r₃ hr₃ _ => .throw

theorem takes_call (hr : r.Sound) (opening : Token) (callee : String) (given : List Expr) :
  Takes r given (call opening callee) (fun _ => True) fun e => given ++ e.preorder
  := by
  refine (takes_body hr given).bind fun args r₁ hr₁ _ => (keeps_close opening r₁ _ hr₁).bind
    fun stop r₂ hr₂ _ => ?_
  have hmade := makes_makeExpr given (opening.span.merge stop) (.call callee args) trivial
  rw [shapePreorder] at hmade
  exact Takes.lift hmade hr₂

theorem takes_headForm (hr : r.Sound) (opening : Token) (given : List Expr) :
  Takes r given (headForm opening) (fun _ => True) fun e => given ++ e.preorder
  := by
  refine (keeps_current r given hr).bind fun head r₁ hr₁ _ => ?_
  split
  · refine (keeps_skip r₁ given hr₁).bind fun _ r₂ hr₂ _ => ?_
    split
    · exact takes_specialForm hr₂ opening head _ given
    · exact takes_call hr₂ opening _ given
  · exact (keeps_skip r₁ given hr₁).bind fun _ r₂ hr₂ _ => (takes_body hr₂ given).bind fun operands r₃ hr₃ _ =>
      (keeps_close opening r₃ _ hr₃).bind fun _ r₄ hr₄ _ =>
        Takes.lift (makes_applyOperator _ operands _ given) hr₄
  · exact .throw
  · exact .unexpected _
  · exact .throw
  · exact .throw
  · exact .throw

theorem keeps_startsWithHead :
  Keeps startsWithHead
  := by
  refine keeps_current.bind fun token => ?_
  split
  · exact .pure _
  · refine keeps_second.bind fun kind => ?_
    split
    · exact .pure _
    · exact .pure _
    · exact .pure _
  · exact .pure _

/-- A name that has been read can be used as that of a callee. -/
theorem takes_parenForm (hr : r.Sound) (opening : Token) (given : List Expr) :
  Takes r given (parenForm opening) (fun _ => True) fun e => given ++ e.preorder
  := by
  refine (keeps_startsWithHead r given hr).bind fun isHead r₁ hr₁ _ => ?_
  split
  · exact takes_headForm hr₁ opening given
  · refine (takes_expr hr₁ given).bind fun first r₂ hr₂ _ => (keeps_current r₂ _ hr₂).bind fun token r₃ hr₃ _ => ?_
    split
    · exact (keeps_skip r₃ _ hr₃).bind fun _ r₄ hr₄ _ => takes_conditional hr₄ first opening given
    · exact (takes_operatorChain hr₃ first given).bind fun chained r₄ hr₄ _ =>
        (keeps_close opening r₄ _ hr₄).bind fun _ r₅ hr₅ _ => .pure_withSpan hr₅ _
    · exact .pure_withSpan hr₃ _
    · exact Makes.of_subperm (takes_call hr₃ opening _ given) (List.sublist_append_left ..).subperm
    · exact .unexpected _

end FormParser

/-! ## Trees of tokens -/

theorem makesExpr_parseGroup {parts : List Part} (hparts : Remaining.Sound ⟨parts, closing⟩) :
  MakesExpr (parseGroup opening parts closing)
  := by
  refine makes_within ?_
  split
  · exact FormParser.takes_parenForm hparts opening []
  · exact FormParser.takes_headForm hparts opening []

theorem makesExpr_parseAtom {token : Token} (htoken : ∀ n, token.kind = .int n → isInt64 n = true) :
  MakesExpr (parseAtom token)
  := by
  have hmade : ∀ {shape : Shape Expr}, shape.IsParsed → shapePreorder shape = [] →
      MakesExpr (makeExpr token.span shape) := by
    intro shape hshape hparts
    have hmade := makes_makeExpr [] token.span _ hshape
    rwa [hparts] at hmade
  unfold parseAtom
  split
  · next n hkind => exact hmade (htoken n hkind) (by rw [shapePreorder])
  iterate 4 exact hmade trivial (by rw [shapePreorder])
  exact Makes.throw

mutual

/-- A tree of tokens, the integers among which are in range, stands for an expression with new identifiers. -/
theorem sound_toPart : ∀ {tree : TokenTree}, tree.All (fun token => ∀ n, token.kind = .int n → isInt64 n = true) →
    tree.toPart.Sound
  | .atom _, .atom h => .atom (makesExpr_parseAtom h)
  | .group _ trees _, .group _ hparts _ =>
    .group (sound_toParts trees hparts) (makesExpr_parseGroup (sound_toParts trees hparts))

theorem sound_toParts : ∀ trees : List TokenTree,
    (∀ tree ∈ trees, tree.All fun token => ∀ n, token.kind = .int n → isInt64 n = true) →
    ∀ part ∈ toParts trees, part.Sound
  | [], _ => List.forall_mem_nil _
  | tree :: trees, h => by
    rw [List.forall_mem_cons] at h
    exact List.forall_mem_cons.mpr ⟨sound_toPart h.1, sound_toParts trees h.2⟩

end

end FormCompiler
