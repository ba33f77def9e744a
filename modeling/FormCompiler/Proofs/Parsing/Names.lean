import FormCompiler.Parsing.Form
import FormCompiler.Proofs.Action.Ensures
import FormCompiler.Proofs.Evaluation.Expr
import FormCompiler.Proofs.Parsing.Tokens

/-!
# Names in parsed expressions

A name in a parsed expression is a word of the text that the expression has been parsed from, or a hidden name
that has been given out (`Sourced`). `Names given p found` says that a parser that knows some names only finds
known ones, and `Collects` says the same of a parser that works through the parts of a group.
-/

namespace FormCompiler

variable {α β : Type}
variable {part : Part} {opening closing : Token} {parts : List Part}

/-- The word of a token that can name something. -/
def TokenKind.word? : TokenKind → Option String
  | .ident text | .symbol text => some text
  | _ => none

/-- The hidden name with a number. -/
def hiddenText (n : Nat) : String := s!"__pat{n}"

/-- A word of the text, or a hidden name that has been given out. -/
def Sourced (words : String → Prop) (s : ParserState) (name : String) : Prop :=
  words name ∨ ∃ n < s.hiddenNames, name = hiddenText n

theorem Sourced.mono {words : String → Prop} {s s' : ParserState} {name : String} (h : Sourced words s name)
    (hle : s.hiddenNames ≤ s'.hiddenNames) :
  Sourced words s' name
  := h.imp_right fun ⟨n, hn, hname⟩ => ⟨n, Nat.lt_of_lt_of_le hn hle, hname⟩

theorem namesIn_preorders (items : List Expr) :
  namesIn (preorders items) = items.flatMap Expr.names
  := by
  induction items with
  | nil => rfl
  | cons item items ih =>
    rw [preorders, namesIn_append, ih]
    rfl

/-- The names in a form. -/
def shapeNames (shape : Shape Expr) : List String := shape.ownNames ++ namesIn (shapePreorder shape)

theorem names_eq_shapeNames (e : Expr) :
  e.names = shapeNames e.shape
  := by
  obtain ⟨id, span, shape⟩ := e
  exact names_node id span shape

theorem names_withSpan (e : Expr) (span : Span) :
  (e.withSpan span).names = e.names
  := by
  obtain ⟨id, old, shape⟩ := e
  rw [names_eq_shapeNames, names_eq_shapeNames]
  rfl

section

variable (words : String → Prop)

/-- A parser that knows some names only finds known ones. -/
def Names (given : List String) (p : Parser α) (good : α → Prop) (found : α → List String) : Prop :=
  ∀ s, (∀ name ∈ given, Sourced words s name) → Ensures s p fun a s' =>
    s.hiddenNames ≤ s'.hiddenNames ∧ good a ∧ ∀ name ∈ found a, Sourced words s' name

/-- The words of a part are known, and so are the names in the expression that it stands for. -/
inductive Part.Sourced : Part → Prop
  | atom {token : Token} {expr : Parser Expr} (htoken : ∀ word ∈ token.kind.word?, words word)
    (h : Names words [] expr (fun _ => True) Expr.names) : Sourced (.atom token expr)
  | group {opening closing : Token} {parts : List Part} {expr : Parser Expr}
    (hopening : ∀ word ∈ opening.kind.word?, words word) (hclosing : ∀ word ∈ closing.kind.word?, words word)
    (hparts : ∀ part ∈ parts, Sourced part) (h : Names words [] expr (fun _ => True) Expr.names) :
    Sourced (.group opening parts closing expr)

/-- All words that remain are known. -/
structure Remaining.Sourced (r : Remaining) : Prop where
  parts : ∀ part ∈ r.parts, part.Sourced words
  closing : ∀ word ∈ r.closing.kind.word?, words word

/-- A parser that works through the parts of a group and knows some names only finds known ones. -/
def Collects (given : List String) (p : FormParser α) (found : α → List String) : Prop :=
  ∀ r, r.Sourced words → Names words given (p r) (fun x => x.2.Sourced words) fun x => found x.1

end

variable {words : String → Prop} {given : List String}

namespace Names

variable {p : Parser α} {good : α → Prop} {found : α → List String}

theorem bind {k : α → Parser β} {good' : β → Prop} {found' : β → List String} (hp : Names words given p good found)
    (hk : ∀ a, good a → Names words (found a ++ given) (k a) good' found') :
  Names words given (p >>= k) good' found'
  := by
  intro s hgiven
  refine (hp s hgiven).bind fun a s' ⟨hle, hgood, hfound⟩ => ?_
  have hnext := hk a hgood s' (List.forall_mem_append.mpr ⟨hfound, fun name hname => (hgiven name hname).mono hle⟩)
  exact hnext.mono fun b s'' ⟨hle', hrest⟩ => ⟨Nat.le_trans hle hle', hrest⟩

theorem pure {a : α} (hgood : good a) (hfound : found a ⊆ given) :
  Names words given (pure a) good found
  := fun _ hgiven => .pure ⟨Nat.le_refl _, hgood, fun name hname => hgiven name (hfound hname)⟩

theorem throw {e : ParseError} :
  Names words given (throw e) good found
  := fun _ _ => .throw

theorem mono {given' : List String} (h : Names words given' p good found) (hgiven : given' ⊆ given) :
  Names words given p good found
  := fun s hknown => h s fun name hname => hknown name (hgiven hname)

theorem pure_of_words {a : α} (hgood : good a) (hfound : ∀ word ∈ found a, words word) :
  Names words given (Pure.pure a) good found
  := fun _ _ => .pure ⟨Nat.le_refl _, hgood, fun word hword => .inl (hfound word hword)⟩

/-- A word need not be given. -/
theorem of_word {word : String} (hword : words word) (h : Names words (word :: given) p good found) :
  Names words given p good found
  := fun s hgiven => h s (List.forall_mem_cons.mpr ⟨.inl hword, hgiven⟩)

end Names

theorem names_makeExpr {span : Span} {shape : Shape Expr} (h : shapeNames shape ⊆ given) :
  Names words given (makeExpr span shape) (fun _ => True) Expr.names
  := by
  rintro s hgiven _ _ ⟨⟩
  refine ⟨Nat.le_refl _, trivial, fun name hname => ?_⟩
  rw [names_eq_shapeNames] at hname
  exact (hgiven name (h hname)).mono (Nat.le_refl _)

theorem names_hiddenName :
  Names words given hiddenName (fun _ => True) fun name => [name]
  := by
  rintro s hgiven _ _ ⟨⟩
  refine ⟨Nat.le_succ _, trivial, List.forall_mem_singleton.mpr (.inr ⟨s.hiddenNames, Nat.lt_succ_self _, rfl⟩)⟩

theorem Part.Sourced.expr (h : part.Sourced words) :
  Names words given part.expr (fun _ => True) Expr.names
  := by
  cases h with
  | atom _ h | group _ _ _ h => exact h.mono (List.nil_subset _)

theorem Part.Sourced.lead (h : part.Sourced words) :
  ∀ word ∈ part.lead.kind.word?, words word
  := by
  cases h with
  | atom htoken _ => exact htoken
  | group hopening _ _ _ => exact hopening

theorem Part.Sourced.remaining {expr : Parser Expr} (h : Part.Sourced words (.group opening parts closing expr)) :
  Remaining.Sourced words ⟨parts, closing⟩
  := by
  cases h with
  | group _ hclosing hparts _ => exact ⟨hparts, hclosing⟩

namespace Collects

variable {p : FormParser α} {found : α → List String}

theorem bind {k : α → FormParser β} {found' : β → List String} (hp : Collects words given p found)
    (hk : ∀ a, Collects words (found a ++ given) (k a) found') :
  Collects words given (p >>= k) found'
  := fun r hr => (hp r hr).bind fun x hx => hk x.1 x.2 hx

theorem pure {a : α} (hfound : found a ⊆ given) :
  Collects words given (pure a) found
  := fun _ hr => .pure hr hfound

theorem pure_of_words {a : α} (hfound : ∀ word ∈ found a, words word) :
  Collects words given (Pure.pure a) found
  := fun _ hr => .pure_of_words hr hfound

theorem throw {e : ParseError} :
  Collects words given (throw e) found
  := fun _ _ => .throw

/-- A word need not be given. -/
theorem of_word {word : String} (hword : words word) (h : Collects words (word :: given) p found) :
  Collects words given p found
  := fun r hr => (h r hr).of_word hword

theorem get {k : Remaining → FormParser β} {found' : β → List String}
    (h : ∀ r, r.Sourced words → Collects words given (k r) found') :
  Collects words given (get >>= k) found'
  := fun r hr => h r hr r hr

theorem lift {p : Parser α} {good : α → Prop} (h : Names words given p good found) :
  Collects words given (liftM p) found
  := fun _ hr => Names.bind h fun _ _ => .pure hr (List.subset_append_left _ _)

theorem ite {c : Prop} [Decidable c] {q : FormParser α} (hp : Collects words given p found)
    (hq : Collects words given q found) :
  Collects words given (if c then p else q) found
  := by
  split
  · exact hp
  · exact hq

end Collects

/-! ## Parts of groups -/

/-- The parts of a group on their own. -/
theorem names_within {p : FormParser α} {found : α → List String} (hparts : Remaining.Sourced words ⟨parts, closing⟩)
    (h : Collects words given p found) :
  Names words given (FormParser.within parts closing p) (fun _ => True) found
  := (h _ hparts).bind fun _ _ => .pure trivial (List.subset_append_left _ _)

theorem Remaining.Sourced.tail (h : Remaining.Sourced words ⟨part :: parts, closing⟩) :
  Remaining.Sourced words ⟨parts, closing⟩
  := ⟨(List.forall_mem_cons.mp h.parts).2, h.closing⟩

theorem Remaining.Sourced.done {r : Remaining} (h : r.Sourced words) :
  Remaining.Sourced words { r with parts := [] }
  := ⟨List.forall_mem_nil _, h.closing⟩

namespace FormParser

variable {found : α → List String}

theorem collects_current :
  Collects words given current fun token => token.kind.word?.toList
  := by
  refine .get fun r hr => .pure_of_words ?_
  obtain ⟨parts, closing⟩ := r
  simp only [Option.mem_toList]
  cases parts with
  | nil => exact hr.closing
  | cons part parts => exact (hr.parts part (List.mem_cons_self ..)).lead

theorem collects_second :
  Collects words given second fun _ => []
  := .get fun _ _ => .pure (List.nil_subset _)

theorem collects_atEnd :
  Collects words given atEnd fun _ => []
  := .get fun _ _ => .pure (List.nil_subset _)

theorem collects_skip :
  Collects words given skip fun _ => []
  := fun _ hr => Names.pure ⟨fun part hpart => hr.parts part (List.mem_of_mem_drop hpart), hr.closing⟩ (List.nil_subset _)

theorem collects_set {r : Remaining} (hr : r.Sourced words) :
  Collects words given (set r) fun _ => []
  := fun _ _ => Names.pure hr (List.nil_subset _)

theorem collects_unexpected (expected : String) :
  Collects words given (unexpected expected) found
  := collects_current.bind fun _ => .throw

theorem collects_expr :
  Collects words given expr Expr.names
  := by
  refine .get fun r hr => ?_
  obtain ⟨parts, closing⟩ := r
  cases parts with
  | nil => exact collects_unexpected _
  | cons part parts => exact collects_skip.bind fun _ => .lift (hr.parts part (List.mem_cons_self ..)).expr

theorem collects_mapM {f : Part → Parser α}
    (h : ∀ part ∈ parts, ∀ given, Names words given (f part) (fun _ => True) found) :
  Collects words given (parts.mapM fun part => (f part : FormParser α)) fun items => items.flatMap found
  := by
  induction parts generalizing given with
  | nil =>
    rw [List.mapM_nil]
    exact .pure (List.nil_subset _)
  | cons part parts ih =>
    rw [List.forall_mem_cons] at h
    rw [List.mapM_cons]
    refine (Collects.lift (h.1 _)).bind fun a => (ih h.2).bind fun items => .pure ?_
    rw [List.flatMap_cons]
    grind

theorem collects_body :
  Collects words given body fun items => namesIn (preorders items)
  := by
  simp only [namesIn_preorders]
  exact .get fun r hr => (collects_set hr.done).bind fun _ =>
    collects_mapM fun part hpart _ => (hr.parts part hpart).expr

theorem collects_name (expected : String) :
  Collects words given (name expected) fun text => [text]
  := by
  refine collects_current.bind fun token => ?_
  split
  · next text hkind =>
    exact collects_skip.bind fun _ => .pure (by simp [hkind, TokenKind.word?])
  · exact collects_unexpected _

theorem collects_close (opening : Token) :
  Collects words given (close opening) fun _ => []
  := collects_current.bind fun _ => .ite (.pure (List.nil_subset _)) (.ite .throw (collects_unexpected _))

theorem collects_type :
  Collects words given type fun _ => []
  := by
  refine collects_current.bind fun token => ?_
  split
  · refine collects_skip.bind fun _ => ?_
    split
    · exact .pure (List.nil_subset _)
    · exact .throw
  · exact collects_unexpected _

theorem collects_typedName (opening : Token) (expected : String) :
  Collects words given (typedName opening expected) fun named => [named.1]
  := (collects_name expected).bind fun _ => collects_type.bind fun _ => (collects_close opening).bind fun _ =>
    .pure (by simp)

end FormParser

/-! ## Operators -/

@[simp] theorem namesIn_nil :
  namesIn [] = []
  := rfl

@[simp] theorem namesIn_preorder (e : Expr) :
  namesIn e.preorder = e.names
  := rfl

theorem names_chain (op : BinaryOp) (first : Expr) (rest : List Expr)
    (h : first.names ++ namesIn (preorders rest) ⊆ given) :
  Names words given (chain op first rest) (fun _ => True) Expr.names
  := by
  induction rest generalizing first given with
  | nil => exact .pure trivial (by simpa [preorders] using h)
  | cons next rest ih =>
    rw [preorders, namesIn_append, namesIn_preorder, List.append_subset, List.append_subset] at h
    have hboth : shapeNames (.binary op first next) ⊆ given := by
      simp [shapeNames, Shape.ownNames, shapePreorder, namesIn_append, h]
    exact (names_makeExpr hboth).bind fun both _ => ih both (by grind)

theorem names_applyOperator (symbol : String) (operands : List Expr) (span : Span)
    (h : symbol :: namesIn (preorders operands) ⊆ given) :
  Names words given (applyOperator symbol operands span) (fun _ => True) Expr.names
  := by
  unfold applyOperator
  split
  · next op operand _ =>
    refine names_makeExpr ?_
    simp [preorders] at h
    simp [shapeNames, Shape.ownNames, shapePreorder, h]
  · next op first second rest _ =>
    refine (names_chain op first (second :: rest) ?_).bind fun e _ => .pure trivial ?_
    · rw [preorders, namesIn_append] at h
      exact List.Subset.trans (List.subset_cons_self _ _) h
    · rw [names_withSpan]
      exact List.subset_append_left _ _
  · exact .throw
  · exact names_makeExpr h

namespace FormParser

theorem collects_getState :
  Collects words given (getThe ParserState) fun _ => []
  := by
  rintro r hr s _ _ _ ⟨⟩
  exact ⟨Nat.le_refl _, hr, List.forall_mem_nil _⟩

theorem collects_peekOperator :
  Collects words given peekOperator fun found => found.toList.map Prod.fst
  := by
  refine collects_current.bind fun token => ?_
  split
  · next symbol hkind =>
    refine collects_getState.bind fun s => .pure ?_
    cases s.operators.lookup symbol <;> simp [hkind, TokenKind.word?]
  · exact .pure (List.nil_subset _)

theorem names_applyBetween (symbol : String) (info : OperatorInfo) (lhs rhs : Expr)
    (h : symbol :: (lhs.names ++ rhs.names) ⊆ given) :
  Names words given (applyBetween symbol info lhs rhs) (fun _ => True) Expr.names
  := by
  refine names_makeExpr ?_
  cases info.builtin with
  | some op =>
    simp [shapeNames, Shape.ownNames, shapePreorder, namesIn_append]
    grind
  | none =>
    simp [shapeNames, Shape.ownNames, shapePreorder, preorders, namesIn_append]
    grind

mutual

theorem collects_climb : ∀ (bound : Nat) (lhs : Expr) (least : Nat) (given : List String), lhs.names ⊆ given →
    Collects words given (climb bound lhs least) Expr.names
  | 0, lhs, least, given, h => .pure h
  | bound + 1, lhs, least, given, h => by
    rw [climb]
    refine collects_current.bind fun token => collects_peekOperator.bind fun operator => ?_
    split
    · next symbol info =>
      refine .ite (.pure (by grind)) ?_
      refine collects_skip.bind fun _ => collects_expr.bind fun first => ?_
      refine (collects_climbRight bound info first _ (by grind)).bind fun rhs => ?_
      refine (Collects.lift (names_applyBetween symbol info lhs rhs (by grind))).bind fun both => ?_
      exact collects_climb bound both least _ (by grind)
    · exact .throw
    · exact .pure (by grind)

theorem collects_climbRight : ∀ (bound : Nat) (info : OperatorInfo) (rhs : Expr) (given : List String),
    rhs.names ⊆ given → Collects words given (climbRight bound info rhs) Expr.names
  | 0, info, rhs, given, h => .pure h
  | bound + 1, info, rhs, given, h => by
    rw [climbRight]
    refine collects_peekOperator.bind fun operator => ?_
    split
    · next least _ =>
      exact (collects_climb bound rhs least _ (by grind)).bind fun next => collects_climbRight bound info next _ (by grind)
    · exact .pure (by grind)

end

theorem collects_operatorChain (lhs : Expr) (h : lhs.names ⊆ given) :
  Collects words given (operatorChain lhs) Expr.names
  := .get fun _ _ => collects_climb _ lhs 0 _ h

end FormParser

/-! ## Pattern conditionals -/

theorem names_predicate (hpart : part.Sourced words) :
  Names words given (Predicate.ofPart part) (fun _ => True) Predicate.names
  := by
  unfold Predicate.ofPart
  split
  · next opening symbol span first parts closing expr =>
    have hsymbol : words symbol :=
      (hpart.remaining.parts _ (List.mem_cons_self ..)).lead symbol (by simp [Part.lead, TokenKind.word?])
    have hpredicate : Collects words given (do
        let operands ← FormParser.body
        let stop ← FormParser.close opening
        return Predicate.partly symbol operands (opening.span.merge stop)) Predicate.names :=
      .of_word hsymbol (FormParser.collects_body.bind fun operands => (FormParser.collects_close opening).bind fun _ =>
        .pure (by simp [Predicate.names]))
    exact names_within hpart.remaining.tail hpredicate
  · exact hpart.expr.bind fun e _ => .pure trivial (List.subset_append_left _ _)

theorem names_parseClauses : ∀ (parts : List Part) (given : List String), (∀ part ∈ parts, part.Sourced words) →
    Names words given (parseClauses parts) (fun _ => True) fun clauses =>
      clauseNames clauses.1 ++ (clauses.2.elim [] Expr.names)
  | [], given, _ => by
    rw [parseClauses]
    exact .pure trivial (List.nil_subset _)
  | [last], given, hparts => by
    rw [parseClauses]
    refine (names_predicate (List.forall_mem_singleton.mp hparts)).bind fun predicate _ => ?_
    cases predicate with
    | equals e => exact .pure trivial (List.subset_append_left _ _)
    | partly symbol operands span => exact .throw
  | first :: second :: rest, given, hparts => by
    obtain ⟨hfirst, hsecond, hrest⟩ : first.Sourced words ∧ second.Sourced words ∧ ∀ part ∈ rest, part.Sourced words := by
      simpa using hparts
    rw [parseClauses]
    refine (names_predicate hfirst).bind fun predicate _ => hsecond.expr.bind fun result _ =>
      (names_parseClauses rest _ hrest).bind fun clauses _ => .pure trivial ?_
    simp only [clauseNames, List.flatMap_cons]
    grind

theorem names_test {subject : Expr} (p : Predicate) (h : subject.names ++ p.names ⊆ given) :
  Names words given (p.test subject) (fun _ => True) Expr.names
  := by
  rw [List.append_subset] at h
  have hcopy : Names words given (makeExpr subject.span subject.shape) (fun _ => True) Expr.names :=
    names_makeExpr (names_eq_shapeNames subject ▸ h.1)
  cases p with
  | equals e =>
    refine hcopy.bind fun copy _ => names_makeExpr ?_
    simp only [shapeNames, Shape.ownNames, shapePreorder, namesIn_append, namesIn_preorder, Predicate.names] at h ⊢
    grind
  | partly symbol operands span =>
    refine hcopy.bind fun copy _ => names_applyOperator symbol (copy :: operands) span ?_
    simp only [preorders, namesIn_append, namesIn_preorder, Predicate.names] at h ⊢
    grind

theorem names_nestClauses {subject default : Expr} (clauses : List (Predicate × Expr))
    (h : subject.names ++ default.names ++ clauseNames clauses ⊆ given) :
  Names words given (nestClauses subject default clauses) (fun _ => True) Expr.names
  := by
  induction clauses generalizing given with
  | nil => exact .pure trivial (by grind)
  | cons clause clauses ih =>
    obtain ⟨predicate, result⟩ := clause
    simp only [clauseNames, List.flatMap_cons] at h ih
    refine (ih (by grind)).bind fun otherwise _ => (names_test predicate (by grind)).bind fun test _ => names_makeExpr ?_
    simp only [shapeNames, Shape.ownNames, shapePreorder, optionPreorder, namesIn_append, namesIn_preorder]
    grind

namespace FormParser

theorem collects_conditional (value : Expr) (opening : Token) (h : value.names ⊆ given) :
  Collects words given (conditional value opening) Expr.names
  := by
  refine .get fun r hr => (Collects.lift (names_parseClauses r.parts _ hr.parts)).bind fun clauses => ?_
  obtain ⟨clauses, default⟩ := clauses
  refine (collects_set hr.done).bind fun _ => (collects_close opening).bind fun stop => ?_
  cases default with
  | none => exact .throw
  | some default =>
    dsimp only
    split
    · refine (Collects.lift (names_nestClauses clauses ?_)).bind fun choice => .pure ?_
      · grind
      · rw [names_withSpan]
        exact List.subset_append_left _ _
    · refine (Collects.lift names_hiddenName).bind fun hidden => ?_
      refine (Collects.lift (names_makeExpr ?_)).bind fun binding => ?_
      · simp only [shapeNames, Shape.ownNames, shapePreorder, namesIn_preorder]
        grind
      refine (Collects.lift (names_makeExpr ?_)).bind fun subject => ?_
      · simp only [shapeNames, Shape.ownNames, shapePreorder, namesIn_nil]
        grind
      refine (Collects.lift (names_nestClauses clauses ?_)).bind fun choice => .lift (names_makeExpr ?_)
      · grind
      · simp only [shapeNames, Shape.ownNames, shapePreorder, preorders, namesIn_append, namesIn_preorder, namesIn_nil,
          names_withSpan]
        grind

/-! ## Special forms -/

theorem collects_binding :
  Collects words given binding fun named => [named.1]
  := by
  refine .get fun r hr => ?_
  obtain ⟨parts, closing⟩ := r
  dsimp only
  split
  · next text span e rest =>
    have htext : words text := (hr.parts _ (List.mem_cons_self ..)).lead text (by simp [Part.lead, TokenKind.word?])
    exact collects_skip.bind fun _ => .pure_of_words (by simpa using htext)
  · next opening parts closing e rest =>
    have hparts := (hr.parts _ (List.mem_cons_self ..)).remaining
    exact collects_skip.bind fun _ => (Collects.lift (names_within hparts (collects_typedName _ _))).bind fun _ =>
      .pure (by simp)
  · exact collects_unexpected _

theorem collects_declaration (isMutable : Bool) :
  Collects words given (declaration isMutable) shapeNames
  := collects_binding.bind fun _ => collects_expr.bind fun _ =>
    .pure (by simp [shapeNames, Shape.ownNames, shapePreorder])

theorem collects_assignment (head : Token) :
  Collects words given (assignment head) shapeNames
  := by
  refine collects_expr.bind fun target => collects_expr.bind fun value => ?_
  split
  · next name hshape =>
    refine .pure ?_
    rw [names_eq_shapeNames target, hshape]
    simp only [shapeNames, Shape.ownNames, shapePreorder, namesIn_preorder]
    grind
  · next array index hshape =>
    refine .pure ?_
    rw [names_eq_shapeNames target, hshape]
    simp only [shapeNames, Shape.ownNames, shapePreorder, namesIn_append, namesIn_preorder]
    grind
  · exact .throw

theorem collects_conditionalForm (isCheck : Bool) :
  Collects words given (conditionalForm isCheck) shapeNames
  := by
  refine collects_expr.bind fun test => collects_expr.bind fun thenBranch => collects_atEnd.bind fun ended => ?_
  split
  · refine collects_expr.bind fun elseBranch => .pure ?_
    simp only [shapeNames, Shape.ownNames, shapePreorder, optionPreorder, namesIn_append, namesIn_preorder]
    grind
  · refine .pure ?_
    simp only [shapeNames, Shape.ownNames, shapePreorder, optionPreorder, namesIn_append, namesIn_preorder, namesIn_nil]
    grind

theorem collects_forForm :
  Collects words given forForm shapeNames
  := by
  refine collects_expr.bind fun init => ?_
  split
  · refine collects_expr.bind fun test => collects_expr.bind fun step => collects_body.bind fun items => .pure ?_
    simp only [shapeNames, Shape.ownNames, shapePreorder, namesIn_append, namesIn_preorder]
    grind
  · exact .throw

theorem names_resource (hpart : part.Sourced words) :
  Names words given (resource part) (fun _ => True) fun binding => binding.name :: binding.init.names
  := by
  unfold resource
  split
  · exact names_within hpart.remaining ((collects_name _).bind fun _ => collects_expr.bind fun _ =>
      (collects_close _).bind fun _ => .pure (by simp))
  · exact .throw

theorem collects_resourceForm :
  Collects words given resourceForm shapeNames
  := by
  refine .get fun r hr => ?_
  obtain ⟨parts, closing⟩ := r
  dsimp only
  split
  · next opening parts closing e rest =>
    have hparts := (hr.parts _ (List.mem_cons_self ..)).remaining
    have hresources : ∀ given, Collects words given (do
        let r ← get
        let resources ← r.parts.mapM fun part => (resource part : FormParser (Resource Expr))
        set { r with parts := [] }
        let _ ← close opening
        return resources) fun bindings => bindings.flatMap fun binding => binding.name :: binding.init.names :=
      fun _ => .get fun r hr => (collects_mapM fun part hpart _ => names_resource (hr.parts part hpart)).bind
        fun bindings => (collects_set hr.done).bind fun _ => (collects_close opening).bind fun _ => .pure (by simp)
    refine collects_skip.bind fun _ => (Collects.lift (names_within hparts (hresources _))).bind fun bindings =>
      collects_body.bind fun items => .pure ?_
    have hbindings : ∀ name ∈ bindings.map (·.name) ++ namesIn (resourcePreorders bindings),
        name ∈ bindings.flatMap fun binding => binding.name :: binding.init.names := by
      induction bindings with
      | nil => simp [resourcePreorders]
      | cons binding bindings ih =>
        obtain ⟨text, init, span⟩ := binding
        simp only [List.map_cons, resourcePreorders, namesIn_append, namesIn_preorder, List.flatMap_cons]
        grind
    simp only [shapeNames, Shape.ownNames, shapePreorder, namesIn_append]
    grind
  · exact collects_unexpected _

/-- The names of a special form are in its operands, but for those that are bound. -/
theorem collects_special (head : Token) (text : String) :
  Collects words given (special head text) shapeNames
  := by
  have hnone : ∀ {given : List String} {shape : Shape Expr}, shapeNames shape = [] →
      Collects words given (pure shape) shapeNames := fun h => .pure (h ▸ List.nil_subset _)
  have hbody : ∀ {given : List String} {form : List Expr → Shape Expr},
      (∀ items, shapeNames (form items) = namesIn (preorders items)) →
      Collects words given (do return form (← body)) shapeNames :=
    fun h => collects_body.bind fun items => .pure (by simp [h])
  have hexpr : ∀ {given : List String} {form : Expr → Shape Expr}, (∀ e, shapeNames (form e) = e.names) →
      Collects words given (do return form (← expr)) shapeNames :=
    fun h => collects_expr.bind fun e => .pure (by simp [h])
  have hwhile : ∀ isAsync, Collects words given (do return .whileLoop isAsync (← expr) (← body)) shapeNames := by
    refine fun isAsync => collects_expr.bind fun test => collects_body.bind fun items => .pure ?_
    simp only [shapeNames, Shape.ownNames, shapePreorder, namesIn_append, namesIn_preorder]
    grind
  unfold special
  split
  · exact collects_declaration false
  · exact collects_declaration true
  · exact collects_assignment head
  · exact hbody fun _ => by simp [shapeNames, Shape.ownNames, shapePreorder]
  · exact collects_conditionalForm false
  · exact collects_conditionalForm true
  · exact hwhile false
  · exact hwhile true
  · exact collects_forForm
  · exact hbody fun _ => by simp [shapeNames, Shape.ownNames, shapePreorder]
  · exact hnone (by simp [shapeNames, Shape.ownNames, shapePreorder])
  · exact hnone (by simp [shapeNames, Shape.ownNames, shapePreorder])
  · refine collects_atEnd.bind fun ended => ?_
    split
    · exact hnone (by simp [shapeNames, Shape.ownNames, shapePreorder, optionPreorder])
    · exact hexpr fun _ => by simp [shapeNames, Shape.ownNames, shapePreorder, optionPreorder]
  · refine collects_expr.bind fun target => collects_expr.bind fun index => .pure ?_
    simp only [shapeNames, Shape.ownNames, shapePreorder, namesIn_append, namesIn_preorder]
    grind
  · exact hbody fun _ => by simp [shapeNames, Shape.ownNames, shapePreorder]
  · exact hbody fun _ => by simp [shapeNames, Shape.ownNames, shapePreorder]
  · exact hexpr fun _ => by simp [shapeNames, Shape.ownNames, shapePreorder]
  · exact hexpr fun _ => by simp [shapeNames, Shape.ownNames, shapePreorder]
  · exact hexpr fun _ => by simp [shapeNames, Shape.ownNames, shapePreorder]
  · exact hexpr fun _ => by simp [shapeNames, Shape.ownNames, shapePreorder]
  · exact hexpr fun _ => by simp [shapeNames, Shape.ownNames, shapePreorder]
  · exact collects_resourceForm
  · exact hbody fun _ => by simp [shapeNames, Shape.ownNames, shapePreorder]
  · exact hnone (by simp [shapeNames, Shape.ownNames, shapePreorder, optionPreorder])
  · exact hexpr fun _ => by simp [shapeNames, Shape.ownNames, shapePreorder, optionPreorder]
  · exact hexpr fun _ => by simp [shapeNames, Shape.ownNames, shapePreorder, optionPreorder]
  · exact .throw

theorem collects_specialForm (opening head : Token) (text : String) :
  Collects words given (specialForm opening head text) Expr.names
  := by
  refine (collects_special head text).bind fun shape => collects_atEnd.bind fun ended => ?_
  have hclose : ∀ {given : List String}, shapeNames shape ⊆ given → Collects words given (do
      let stop ← close opening
      makeExpr (opening.span.merge stop) shape) Expr.names :=
    fun h => (collects_close opening).bind fun _ => .lift (names_makeExpr (by simpa using h))
  split
  · exact hclose (by simp)
  · exact collects_current.bind fun _ => .throw

theorem collects_call (opening : Token) (callee : String) (h : callee ∈ given) :
  Collects words given (call opening callee) Expr.names
  := by
  refine collects_body.bind fun args => (collects_close opening).bind fun _ => .lift (names_makeExpr ?_)
  simp only [shapeNames, Shape.ownNames, shapePreorder]
  grind

theorem collects_headForm (opening : Token) :
  Collects words given (headForm opening) Expr.names
  := by
  refine collects_current.bind fun head => ?_
  split
  · next name hkind =>
    refine collects_skip.bind fun _ => .ite (collects_specialForm opening head name) (collects_call opening name ?_)
    simp [hkind, TokenKind.word?]
  · next symbol hkind =>
    refine collects_skip.bind fun _ => collects_body.bind fun operands => (collects_close opening).bind fun _ =>
      .lift (names_applyOperator symbol operands _ ?_)
    simp [hkind, TokenKind.word?]
  · exact .throw
  · exact collects_unexpected _
  · exact .throw
  · exact .throw
  · exact .throw

theorem collects_startsWithHead :
  Collects words given startsWithHead fun _ => []
  := by
  refine collects_current.bind fun token => ?_
  split
  · exact .pure (List.nil_subset _)
  · refine collects_second.bind fun kind => ?_
    split
    · exact .pure (List.nil_subset _)
    · exact .pure (List.nil_subset _)
    · exact .pure (List.nil_subset _)
  · exact .pure (List.nil_subset _)

theorem collects_parenForm (opening : Token) :
  Collects words given (parenForm opening) Expr.names
  := by
  refine collects_startsWithHead.bind fun isHead => .ite (collects_headForm opening) ?_
  refine collects_expr.bind fun first => collects_current.bind fun token => ?_
  split
  · exact collects_skip.bind fun _ => collects_conditional first opening (by grind)
  · refine (collects_operatorChain first (by grind)).bind fun chained => (collects_close opening).bind fun _ => .pure ?_
    rw [names_withSpan]
    grind
  · refine .pure ?_
    rw [names_withSpan]
    grind
  · next callee hshape _ _ _ =>
    refine collects_call opening callee ?_
    rw [names_eq_shapeNames first, hshape]
    simp [shapeNames, Shape.ownNames]
  · exact collects_unexpected _

end FormParser

/-! ## Trees of tokens -/

theorem names_parseGroup (hparts : Remaining.Sourced words ⟨parts, closing⟩) :
  Names words given (parseGroup opening parts closing) (fun _ => True) Expr.names
  := names_within hparts (.ite (FormParser.collects_parenForm opening) (FormParser.collects_headForm opening))

theorem names_parseAtom {token : Token} (htoken : ∀ word ∈ token.kind.word?, words word) :
  Names words given (parseAtom token) (fun _ => True) Expr.names
  := by
  have hliteral : ∀ {value : Literal}, Names words given (makeExpr token.span (.literal value)) (fun _ => True)
      Expr.names := names_makeExpr (by simp [shapeNames, Shape.ownNames, shapePreorder])
  unfold parseAtom
  split
  iterate 4 exact hliteral
  · next name hkind =>
    have hname : words name := htoken name (by simp [hkind, TokenKind.word?])
    exact .of_word hname (names_makeExpr (by simp [shapeNames, Shape.ownNames, shapePreorder]))
  · exact .throw

mutual

/-- What a tree of tokens stands for has the names in it from its words, or they are hidden ones. -/
theorem sourced_toPart : ∀ {tree : TokenTree}, tree.All (fun token => ∀ word ∈ token.kind.word?, words word) →
    tree.toPart.Sourced words
  | .atom _, .atom h => .atom h (names_parseAtom h)
  | .group _ trees _, .group hopening hparts hclosing =>
    .group hopening hclosing (sourced_toParts trees hparts)
      (names_parseGroup ⟨sourced_toParts trees hparts, hclosing⟩)

theorem sourced_toParts : ∀ trees : List TokenTree,
    (∀ tree ∈ trees, tree.All fun token => ∀ word ∈ token.kind.word?, words word) →
    ∀ part ∈ toParts trees, part.Sourced words
  | [], _ => List.forall_mem_nil _
  | tree :: trees, h => by
    rw [List.forall_mem_cons] at h
    exact List.forall_mem_cons.mpr ⟨sourced_toPart h.1, sourced_toParts trees h.2⟩

end

end FormCompiler
