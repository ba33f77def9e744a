import FormCompiler.Proofs.Parsing.Alike

/-!
# Chains of operators

Precedence climbing reads a chain of operators and operands as a tree. Its operators and operands are, from left to
right, those of the chain, and a child of an operator binds tighter than the operator, or equally tight and to the side
it stands on. There is only one such tree (`OperatorTree.IsNested.unique`), so climbing finds the right one
(`FormParser.operatorChain_nested`).
-/

namespace FormCompiler

/-! ## Trees of operators -/

/-- An operator may be the root of the operand on the given side of another one: it binds tighter, or equally tight and
to that side. -/
def Assoc.Nests (side : Assoc) (outer inner : OperatorInfo) : Prop :=
  outer.precedence < inner.precedence ∨ inner.precedence = outer.precedence ∧ inner.assoc = side

/-- Some operators among which those that bind equally tight do so to the same side. -/
def SidesAgree (known : OperatorInfo → Prop) : Prop :=
  ∀ info info', known info → known info' → info.precedence = info'.precedence → info.assoc = info'.assoc

theorem Assoc.Nests.le {side : Assoc} {outer inner : OperatorInfo} (h : side.Nests outer inner) :
  outer.precedence ≤ inner.precedence
  := by
  obtain hlt | ⟨heq, -⟩ := h
  · exact hlt.le
  · exact heq.ge

/-- An operator that does not belong to the right operand of another one takes that one into its left operand. -/
theorem SidesAgree.nests_left {known : OperatorInfo → Prop} (hsides : SidesAgree known) {info next : OperatorInfo}
    (hinfo : known info) (hnext : known next) (h : ¬Assoc.right.Nests info next) :
  Assoc.left.Nests next info
  := by
  obtain hlt | heq | hgt := Nat.lt_trichotomy next.precedence info.precedence
  · exact .inl hlt
  · refine .inr ⟨heq.symm, ?_⟩
    rw [hsides info next hinfo hnext heq.symm]
    cases hside : next.assoc with
    | left => rfl
    | right => exact absurd (.inr ⟨heq, hside⟩) h
  · exact absurd (.inl hgt) h

theorem Assoc.Nests.trans {known : OperatorInfo → Prop} (hsides : SidesAgree known) {side side' : Assoc}
    {outer middle inner : OperatorInfo} (hmiddle : known middle) (hinner : known inner) (h : side.Nests outer middle)
    (h' : side'.Nests middle inner) :
  side.Nests outer inner
  := by
  obtain hlt' | ⟨heq', -⟩ := h'
  · obtain hlt | ⟨heq, -⟩ := h
    · exact .inl (hlt.trans hlt')
    · exact .inl (heq ▸ hlt')
  · obtain hlt | ⟨heq, hside⟩ := h
    · exact .inl (heq' ▸ hlt)
    · exact .inr ⟨heq'.trans heq, (hsides inner middle hinner hmiddle heq').trans hside⟩

/-- Operands with operators between them. An operand may have operators of its own, in parentheses. -/
inductive OperatorTree where
  | operand (expr : Expr)
  | node (symbol : String) (info : OperatorInfo) (lhs rhs : OperatorTree)

namespace OperatorTree

/-- The first operand. -/
def first : OperatorTree → Expr
  | operand expr => expr
  | node _ _ lhs _ => lhs.first

/-- The operators from left to right, each with the operand behind it. -/
def rest : OperatorTree → List ((String × OperatorInfo) × Expr)
  | operand _ => []
  | node symbol info lhs rhs => lhs.rest ++ ((symbol, info), rhs.first) :: rhs.rest

/-- The operator at the root. -/
def root? : OperatorTree → Option OperatorInfo
  | operand _ => none
  | node _ info _ _ => some info

/-- The root of every operand may stand there, on its side of the operator above it. -/
def IsNested : OperatorTree → Prop
  | operand _ => True
  | node _ info lhs rhs => lhs.IsNested ∧ rhs.IsNested ∧ (∀ inner ∈ lhs.root?, Assoc.left.Nests info inner)
    ∧ ∀ inner ∈ rhs.root?, Assoc.right.Nests info inner

section

variable {known : OperatorInfo → Prop} {tree tree' : OperatorTree} {info : OperatorInfo} {side : Assoc}

/-- All operators of an operand nest if its root does. -/
theorem IsNested.nests (h : tree.IsNested) (hsides : SidesAgree known) (hknown : ∀ entry ∈ tree.rest, known entry.1.2)
    (hroot : ∀ inner ∈ tree.root?, side.Nests info inner) :
  ∀ entry ∈ tree.rest, side.Nests info entry.1.2
  := by
  induction tree generalizing info side with
  | operand expr => exact List.forall_mem_nil _
  | node symbol middle lhs rhs ihl ihr =>
    obtain ⟨hlhs, hrhs, hleft, hright⟩ := h
    rw [rest, List.forall_mem_append, List.forall_mem_cons] at hknown ⊢
    obtain ⟨hknownl, hmiddle, hknownr⟩ := hknown
    have hnests : side.Nests info middle := hroot middle rfl
    refine ⟨fun entry hentry => ?_, hnests, fun entry hentry => ?_⟩
    · exact hnests.trans hsides hmiddle (hknownl entry hentry) (ihl hlhs hknownl hleft entry hentry)
    · exact hnests.trans hsides hmiddle (hknownr entry hentry) (ihr hrhs hknownr hright entry hentry)

/-- No two operators can each be in the operand of the other, on opposite sides. -/
theorem not_nests_of_nests (hsides : SidesAgree known) {info' : OperatorInfo} (hknown : known info)
    (hknown' : known info') (h : Assoc.right.Nests info info') :
  ¬Assoc.left.Nests info' info
  := by
  intro h'
  obtain hlt | ⟨heq, hright⟩ := h
  · obtain hlt' | ⟨heq', -⟩ := h' <;> omega
  · obtain hlt' | ⟨-, hleft⟩ := h'
    · omega
    · have hsame := hsides info' info hknown' hknown heq
      rw [hright, hleft] at hsame
      cases hsame

/-- Two members split a list at the same place, unless each comes before the other. -/
theorem append_cons_inj {α : Type} {before before' after after' : List α} {a a' : α}
    (h : before' ++ a' :: after' = before ++ a :: after) (hnot : ¬(a' ∈ before ∧ a ∈ after'))
    (hnot' : ¬(a ∈ before' ∧ a' ∈ after)) :
  before' = before ∧ a' :: after' = a :: after
  := by
  obtain ⟨more, rfl, hmore⟩ | ⟨more, rfl, hmore⟩ := List.append_eq_append_iff.mp h
  · cases more with
    | nil => exact ⟨(List.append_nil _).symm, hmore⟩
    | cons b more =>
      obtain ⟨rfl, rfl⟩ := List.cons_eq_cons.mp hmore
      exact absurd ⟨by simp, by simp⟩ hnot
  · cases more with
    | nil => exact ⟨List.append_nil _, hmore.symm⟩
    | cons b more =>
      obtain ⟨rfl, rfl⟩ := List.cons_eq_cons.mp hmore
      exact absurd ⟨by simp, by simp⟩ hnot'

/-- Operands and operators in order determine the tree. -/
theorem IsNested.unique (h : tree.IsNested) (h' : tree'.IsNested) (hsides : SidesAgree known)
    (hknown : ∀ entry ∈ tree.rest, known entry.1.2) (hfirst : tree'.first = tree.first)
    (hrest : tree'.rest = tree.rest) :
  tree' = tree
  := by
  induction tree generalizing tree' with
  | operand expr =>
    cases tree' with
    | operand expr' => exact congrArg _ hfirst
    | node symbol' info' lhs' rhs' => simp [rest] at hrest
  | node symbol info lhs rhs ihl ihr =>
    cases tree' with
    | operand expr' => simp [rest] at hrest
    | node symbol' info' lhs' rhs' =>
      obtain ⟨hlhs, hrhs, hleft, hright⟩ := h
      obtain ⟨hlhs', hrhs', hleft', hright'⟩ := h'
      have hknown' := hknown
      rw [← hrest] at hknown'
      rw [rest, List.forall_mem_append, List.forall_mem_cons] at hknown hknown'
      obtain ⟨hknownl, hinfo, hknownr⟩ := hknown
      obtain ⟨hknownl', hinfo', hknownr'⟩ := hknown'
      have hleft := hlhs.nests hsides hknownl hleft
      have hright := hrhs.nests hsides hknownr hright
      have hleft' := hlhs'.nests hsides hknownl' hleft'
      have hright' := hrhs'.nests hsides hknownr' hright'
      rw [rest, rest] at hrest
      have hroots := append_cons_inj hrest
        (fun ⟨hmem, hmem'⟩ => not_nests_of_nests hsides hinfo' hinfo (hright' _ hmem') (hleft _ hmem))
        (fun ⟨hmem, hmem'⟩ => not_nests_of_nests hsides hinfo hinfo' (hright _ hmem') (hleft' _ hmem))
      obtain ⟨hrestl, hrestr⟩ := hroots
      injection hrestr with hentry hrestr
      injection hentry with hoperator hfirstr
      injection hoperator with hsymbol hinfos
      rw [ihl hlhs hlhs' hknownl hfirst hrestl, ihr hrhs hrhs' hknownr hfirstr hrestr, hsymbol, hinfos]

end

end OperatorTree

/-! ## Expressions of trees -/

/-- The kind of expression that an operator between two operands is. -/
def OperatorInfo.between (info : OperatorInfo) (symbol : String) (lhs rhs : Expr) : Shape Expr :=
  match info.builtin with
  | some op => .binary op lhs rhs
  | none => .call symbol [lhs, rhs]

/-- An expression is what a tree of operators means. -/
inductive Expr.Shows : Expr → OperatorTree → Prop
  | operand {expr : Expr} : Shows expr (.operand expr)
  | node {id : Nat} {symbol : String} {info : OperatorInfo} {lhs rhs : Expr} {l r : OperatorTree}
    (hlhs : Shows lhs l) (hrhs : Shows rhs r) :
    Shows (.node id (lhs.span.merge rhs.span) (info.between symbol lhs rhs)) (.node symbol info l r)

/-! ## Chains -/

/-- An operator in a chain with the operand behind it, which a parser reads in some state. -/
structure Operation (s : ParserState) where
  token : Token
  tree : TokenTree
  symbol : String
  info : OperatorInfo
  operand : Expr
  kind_eq : token.kind = .symbol symbol
  lookup_eq : s.operators.lookup symbol = some info
  closed : tree.Closed
  parses : (tree.toPart.expr s).1 = .ok operand

section

variable {s t : ParserState} {closing : Token}
variable {chain : List (Operation s)}

namespace Operation

/-- The operator and the operand as trees of tokens. -/
def trees (o : Operation s) : List TokenTree := [.atom o.token, o.tree]

/-- An operator of a tree and the operand behind it are those of the chain, up to identifiers and hidden names. -/
structure Reads (o : Operation s) (entry : (String × OperatorInfo) × Expr) : Prop where
  operator : entry.1 = (o.symbol, o.info)
  operand : ∃ d, o.operand.Like d entry.2

/-- The operand is parsed in all states with the same operators. -/
theorem run_operand (o : Operation s) (ht : t.operators = s.operators) :
  ∃ e t', o.tree.toPart.expr t = (.ok e, t') ∧ t'.operators = s.operators ∧ ∃ d, o.operand.Like d e
  := by
  let d : Shift := ⟨s.nextId - t.nextId, s.hiddenNames - t.hiddenNames, []⟩
  have hlike : s.Like d t := ⟨by simp [d], by simp [d], fun _ _ => by rw [ht]⟩
  have hrun := (o.closed.steady o.tree.all_avoids_nil).expr s t hlike
  have hsame := (o.closed.steady (d := .none) o.tree.all_avoids_nil).expr.operators_eq t
  have hresults := hrun.results
  rw [o.parses] at hresults
  generalize o.tree.toPart.expr t = run at hresults hsame
  obtain ⟨e | e, t'⟩ := run
  · exact hresults.elim
  · exact ⟨e, t', rfl, hsame.trans ht, d, hresults⟩

end Operation

/-- The parts of a chain behind its first operand. -/
def chainParts (chain : List (Operation s)) : List Part := toParts (chain.flatMap Operation.trees)

theorem chainParts_cons (o : Operation s) (chain : List (Operation s)) :
  chainParts (o :: chain) = .atom o.token (parseAtom o.token) :: o.tree.toPart :: chainParts chain
  := rfl

theorem length_chainParts (chain : List (Operation s)) :
  (chainParts chain).length = 2 * chain.length
  := by
  induction chain with
  | nil => rfl
  | cons o chain ih =>
    rw [chainParts_cons, List.length_cons, List.length_cons, List.length_cons, ih]
    omega

namespace FormParser

variable {least : Nat} {info next : OperatorInfo}

theorem peekOperator_nil (hclosing : closing.kind = .closeParen) :
  peekOperator ⟨[], closing⟩ t = (.ok (none, ⟨[], closing⟩), t)
  := by
  have hcurrent : current ⟨[], closing⟩ t = (.ok (closing, ⟨[], closing⟩), t) := rfl
  rw [peekOperator, bind_apply, hcurrent]
  dsimp only
  rw [hclosing]
  rfl

theorem peekOperator_cons (o : Operation s) (chain : List (Operation s)) (ht : t.operators = s.operators) :
  peekOperator ⟨chainParts (o :: chain), closing⟩ t
    = (.ok (some (o.symbol, o.info), ⟨chainParts (o :: chain), closing⟩), t)
  := by
  have hcurrent : current ⟨chainParts (o :: chain), closing⟩ t
      = (.ok (o.token, ⟨chainParts (o :: chain), closing⟩), t) := rfl
  rw [peekOperator, bind_apply, hcurrent]
  dsimp only
  rw [o.kind_eq]
  change (Except.ok ((t.operators.lookup o.symbol).map ((o.symbol, ·)), _), t) = _
  rw [ht, o.lookup_eq]
  rfl

theorem expr_cons (part : Part) (parts : List Part) :
  expr ⟨part :: parts, closing⟩ t = match part.expr t with
    | (.ok e, t') => (.ok (e, ⟨parts, closing⟩), t')
    | (.error e, t') => (.error e, t')
  := by
  change (part.expr >>= fun e => (pure (e, _) : Parser (Expr × Remaining))) t = _
  rw [Ensures.bind_apply]
  rcases part.expr t with ⟨e | e, t'⟩ <;> rfl

/-- At the end of a chain, climbing stops. -/
theorem climb_nil (hclosing : closing.kind = .closeParen) (bound : Nat) (lhs : Expr) (least : Nat) :
  climb bound lhs least ⟨[], closing⟩ t = (.ok (lhs, ⟨[], closing⟩), t)
  := by
  cases bound with
  | zero => rfl
  | succ bound =>
    rw [climb, bind_apply]
    change ((peekOperator >>= _) : FormParser Expr) ⟨[], closing⟩ t = _
    rw [bind_apply, peekOperator_nil hclosing]
    dsimp only
    rw [hclosing]
    rfl

theorem climbRight_nil (hclosing : closing.kind = .closeParen) (bound : Nat) (info : OperatorInfo) (rhs : Expr) :
  climbRight bound info rhs ⟨[], closing⟩ t = (.ok (rhs, ⟨[], closing⟩), t)
  := by
  cases bound with
  | zero => rfl
  | succ bound =>
    rw [climbRight, bind_apply, peekOperator_nil hclosing]
    rfl

/-- Climbing stops before an operator that does not bind tightly enough. -/
theorem climb_cons_of_lt (o : Operation s) (chain : List (Operation s)) (ht : t.operators = s.operators) (bound : Nat)
    (lhs : Expr) (h : o.info.precedence < least) :
  climb (bound + 1) lhs least ⟨chainParts (o :: chain), closing⟩ t
    = (.ok (lhs, ⟨chainParts (o :: chain), closing⟩), t)
  := by
  rw [climb, bind_apply]
  change ((peekOperator >>= _) : FormParser Expr) ⟨chainParts (o :: chain), closing⟩ t = _
  rw [bind_apply, peekOperator_cons o chain ht]
  dsimp only
  rw [if_pos h]
  rfl

/-- Climbing takes any other operator, and what belongs to its right operand. -/
theorem climb_cons_of_le (o : Operation s) (chain : List (Operation s)) (ht : t.operators = s.operators) (bound : Nat)
    (lhs : Expr) (h : least ≤ o.info.precedence) {e : Expr} {t' : ParserState}
    (hoperand : o.tree.toPart.expr t = (.ok e, t')) :
  climb (bound + 1) lhs least ⟨chainParts (o :: chain), closing⟩ t
    = match climbRight bound o.info e ⟨chainParts chain, closing⟩ t' with
      | (.ok (rhs, r), t'') => climb bound
        (.node t''.nextId (lhs.span.merge rhs.span) (o.info.between o.symbol lhs rhs)) least r
        { t'' with nextId := t''.nextId + 1 }
      | (.error e, t'') => (.error e, t'')
  := by
  rw [climb, bind_apply]
  change ((peekOperator >>= _) : FormParser Expr) ⟨chainParts (o :: chain), closing⟩ t = _
  rw [bind_apply, peekOperator_cons o chain ht]
  dsimp only
  rw [if_neg h.not_gt, bind_apply]
  change ((expr >>= _) : FormParser Expr) ⟨o.tree.toPart :: chainParts chain, closing⟩ t = _
  rw [bind_apply, expr_cons, hoperand]
  dsimp only
  rw [bind_apply]
  rcases climbRight bound o.info e ⟨chainParts chain, closing⟩ t' with ⟨e | ⟨rhs, r⟩, t''⟩ <;> rfl

theorem climbRight_cons (o : Operation s) (chain : List (Operation s)) (ht : t.operators = s.operators) (bound : Nat)
    (info : OperatorInfo) (rhs : Expr) :
  climbRight (bound + 1) info rhs ⟨chainParts (o :: chain), closing⟩ t = match rightPrecedence? info o.info with
    | some least => (climb bound rhs least >>= climbRight bound info) ⟨chainParts (o :: chain), closing⟩ t
    | none => (.ok (rhs, ⟨chainParts (o :: chain), closing⟩), t)
  := by
  rw [climbRight, bind_apply, peekOperator_cons o chain ht]
  dsimp only [Option.bind_some]
  cases rightPrecedence? info o.info <;> rfl

/-- The right operand takes an operator that may be the root there, from a precedence up to that of the operator. -/
theorem rightPrecedence?_eq_some (h : rightPrecedence? info next = some least) :
  Assoc.right.Nests info next ∧ least ≤ next.precedence
    ∧ (info.precedence < least ∨ next.precedence = info.precedence ∧ least = info.precedence)
  := by
  unfold rightPrecedence? at h
  split at h
  · next hlt =>
    cases h
    exact ⟨.inl hlt, hlt, .inl (Nat.lt_succ_self _)⟩
  · split at h
    · next hright =>
      cases h
      exact ⟨.inr hright.symm, hright.2.ge, .inr ⟨hright.2, rfl⟩⟩
    · cases h

theorem rightPrecedence?_eq_none (h : rightPrecedence? info next = none) :
  ¬Assoc.right.Nests info next
  := by
  unfold rightPrecedence? at h
  split at h
  · cases h
  · next hle =>
    split at h
    · cases h
    · next hside =>
      rintro (hlt | hright)
      · exact hle hlt
      · exact hside hright.symm

end FormParser

/-! ## Climbing -/

/-- An operator that a parser knows in some state. -/
def Known (s : ParserState) (info : OperatorInfo) : Prop := ∃ symbol, s.operators.lookup symbol = some info

theorem Operation.known (o : Operation s) :
  Known s o.info
  := ⟨o.symbol, o.lookup_eq⟩

theorem known_of_reads {entries : List ((String × OperatorInfo) × Expr)}
    (h : List.Forall₂ Operation.Reads chain entries) :
  ∀ entry ∈ entries, Known s entry.1.2
  := by
  induction h with
  | nil => exact List.forall_mem_nil _
  | @cons o entry _ _ hreads _ ih =>
    refine List.forall_mem_cons.mpr ⟨?_, ih⟩
    rw [hreads.operator]
    exact o.known

/-- The operators and operands of a tree have been extended on the right by those of a chain. -/
structure OperatorTree.ExtendedBy (tree : OperatorTree) (taken : List (Operation s)) (tree' : OperatorTree) : Prop where
  first : tree'.first = tree.first
  rest : ∃ new, tree'.rest = tree.rest ++ new ∧ List.Forall₂ Operation.Reads taken new

namespace OperatorTree.ExtendedBy

variable {tree tree' tree'' : OperatorTree} {taken taken' : List (Operation s)}

theorem refl (s : ParserState) (tree : OperatorTree) :
  tree.ExtendedBy ([] : List (Operation s)) tree
  := ⟨rfl, [], (List.append_nil _).symm, .nil⟩

theorem trans (h : tree.ExtendedBy taken tree') (h' : tree'.ExtendedBy taken' tree'') :
  tree.ExtendedBy (taken ++ taken') tree''
  := by
  obtain ⟨new, hnew, hreads⟩ := h.rest
  obtain ⟨new', hnew', hreads'⟩ := h'.rest
  exact ⟨h'.first.trans h.first, new ++ new', by rw [hnew', hnew, List.append_assoc], List.rel_append hreads hreads'⟩

/-- An operator extends its left operand by itself and its right operand. -/
theorem node (o : Operation s) {e : Expr} (he : ∃ d, o.operand.Like d e) (h : (operand e).ExtendedBy taken tree')
    (lhs : OperatorTree) :
  lhs.ExtendedBy (o :: taken) (.node o.symbol o.info lhs tree')
  := by
  obtain ⟨new, hnew, hreads⟩ := h.rest
  refine ⟨rfl, ((o.symbol, o.info), tree'.first) :: new, ?_, .cons ⟨rfl, ?_⟩ hreads⟩
  · rw [OperatorTree.rest, hnew]
    rfl
  · rwa [h.first]

end OperatorTree.ExtendedBy

/-- What climbing has come to: an expression that shows a nested tree, and a state with the same operators. -/
structure Climbed (s : ParserState) (e : Expr) (t : ParserState) (tree : OperatorTree) : Prop where
  shows : e.Shows tree
  nested : tree.IsNested
  known : ∀ info ∈ tree.root?, Known s info
  operators : t.operators = s.operators

theorem Climbed.operand {e : Expr} (ht : t.operators = s.operators) :
  Climbed s e t (.operand e)
  := ⟨.operand, trivial, (fun _ h => nomatch h), ht⟩

theorem Climbed.node (o : Operation s) {lhs rhs : Expr} {t' : ParserState} {l r : OperatorTree}
    (hlhs : Climbed s lhs t l) (hrhs : Climbed s rhs t' r) (hleft : ∀ inner ∈ l.root?, Assoc.left.Nests o.info inner)
    (hright : ∀ inner ∈ r.root?, Assoc.right.Nests o.info inner) (id : Nat) :
  Climbed s (.node id (lhs.span.merge rhs.span) (o.info.between o.symbol lhs rhs))
    { t' with nextId := t'.nextId + 1 } (.node o.symbol o.info l r)
  := by
  refine ⟨.node hlhs.shows hrhs.shows, ⟨hlhs.nested, hrhs.nested, hleft, hright⟩, ?_, hrhs.operators⟩
  rintro _ ⟨⟩
  exact o.known

/-- A parser climbs from a tree along a chain: it takes some of the chain, and extends the tree by what it takes. -/
def Climbs (closing : Token) (tree : OperatorTree) (chain : List (Operation s))
    (run : Except ParseError (Expr × Remaining) × ParserState)
    (post : OperatorTree → List (Operation s) → Prop) : Prop :=
  ∃ taken rest e t tree', chain = taken ++ rest ∧ run = (.ok (e, ⟨chainParts rest, closing⟩), t)
    ∧ Climbed s e t tree' ∧ tree.ExtendedBy taken tree' ∧ post tree' rest

/-- A parser that takes nothing. -/
theorem Climbs.stop {tree : OperatorTree} {e : Expr} {post : OperatorTree → List (Operation s) → Prop}
    (h : Climbed s e t tree) (hpost : post tree chain) :
  Climbs closing tree chain (.ok (e, ⟨chainParts chain, closing⟩), t) post
  := ⟨[], chain, e, t, tree, rfl, rfl, h, .refl s tree, hpost⟩

mutual

theorem climbs_climb (hclosing : closing.kind = .closeParen) (hsides : SidesAgree (Known s)) :
    ∀ (bound : Nat) (chain : List (Operation s)) (lhs : Expr) (tree : OperatorTree) (least : Nat) (t : ParserState),
    Climbed s lhs t tree → (∀ info ∈ tree.root?, least ≤ info.precedence) →
    (∀ o ∈ chain.head?, least ≤ o.info.precedence → ∀ info ∈ tree.root?, Assoc.left.Nests o.info info) →
    2 * chain.length ≤ bound + 1 →
    Climbs closing tree chain (FormParser.climb bound lhs least ⟨chainParts chain, closing⟩ t) fun tree' rest =>
      (∀ info ∈ tree'.root?, least ≤ info.precedence) ∧ ∀ o ∈ rest.head?, o.info.precedence < least
  | bound, [], lhs, tree, least, t, hlhs, hroot, _, _ => by
    rw [show chainParts ([] : List (Operation s)) = [] from rfl, FormParser.climb_nil hclosing]
    exact .stop hlhs ⟨hroot, fun _ h => nomatch h⟩
  | 0, o :: chain, _, _, _, _, _, _, _, hbound => by
    rw [List.length_cons] at hbound
    omega
  | bound + 1, o :: chain, lhs, tree, least, t, hlhs, hroot, hnext, hbound => by
    rw [List.length_cons] at hbound
    obtain hlt | hle := Nat.lt_or_ge o.info.precedence least
    · rw [FormParser.climb_cons_of_lt o chain hlhs.operators bound lhs hlt]
      refine .stop hlhs ⟨hroot, ?_⟩
      rintro _ ⟨⟩
      exact hlt
    · obtain ⟨e, t', hoperand, ht', hlike⟩ := o.run_operand hlhs.operators
      rw [FormParser.climb_cons_of_le o chain hlhs.operators bound lhs hle hoperand]
      obtain ⟨taken, rest, rhs, v, r, rfl, hright, hrhs, hextended, hnests, hstop⟩ :=
        climbs_climbRight hclosing hsides bound chain o.info e (.operand e) t' o.known (.operand ht')
          (fun _ h => nomatch h) (fun _ _ _ _ h => nomatch h) (by omega)
      rw [hright]
      dsimp only
      have hboth := hlhs.node o hrhs (hnext o rfl hle) hnests v.nextId
      rw [List.length_append] at hbound
      obtain ⟨taken', rest', e', w, tree', rfl, hclimb, he', hextended', hpost⟩ :=
        climbs_climb hclosing hsides bound rest _ _ least _ hboth (by rintro _ ⟨⟩; exact hle)
          (fun o' ho' _ => by rintro _ ⟨⟩; exact hsides.nests_left o.known o'.known (hstop o' ho')) (by omega)
      refine ⟨o :: taken ++ taken', rest', e', w, tree', ?_, hclimb, he', ?_, hpost⟩
      · simp
      · exact (hextended.node o hlike tree).trans hextended'

theorem climbs_climbRight (hclosing : closing.kind = .closeParen) (hsides : SidesAgree (Known s)) :
    ∀ (bound : Nat) (chain : List (Operation s)) (info : OperatorInfo) (rhs : Expr) (tree : OperatorTree)
    (t : ParserState), Known s info → Climbed s rhs t tree → (∀ inner ∈ tree.root?, Assoc.right.Nests info inner) →
    (∀ o ∈ chain.head?, Assoc.right.Nests info o.info → ∀ inner ∈ tree.root?, Assoc.left.Nests o.info inner) →
    2 * chain.length ≤ bound →
    Climbs closing tree chain (FormParser.climbRight bound info rhs ⟨chainParts chain, closing⟩ t) fun tree' rest =>
      (∀ inner ∈ tree'.root?, Assoc.right.Nests info inner) ∧ ∀ o ∈ rest.head?, ¬Assoc.right.Nests info o.info
  | bound, [], info, rhs, tree, t, _, hrhs, hroot, _, _ => by
    rw [show chainParts ([] : List (Operation s)) = [] from rfl, FormParser.climbRight_nil hclosing]
    exact .stop hrhs ⟨hroot, fun _ h => nomatch h⟩
  | 0, o :: chain, _, _, _, _, _, _, _, _, hbound => by
    rw [List.length_cons] at hbound
    omega
  | bound + 1, o :: chain, info, rhs, tree, t, hinfo, hrhs, hroot, hnext, hbound => by
    rw [List.length_cons] at hbound
    rw [FormParser.climbRight_cons o chain hrhs.operators]
    cases hright : FormParser.rightPrecedence? info o.info with
    | none =>
      refine .stop hrhs ⟨hroot, ?_⟩
      rintro _ ⟨⟩
      exact FormParser.rightPrecedence?_eq_none hright
    | some least =>
      obtain ⟨hnests, hle, hleast⟩ := FormParser.rightPrecedence?_eq_some hright
      have hleft := hnext o rfl hnests
      obtain ⟨taken, rest, e, u, tree', hsplit, hclimb, he, hextended, hroot', hstop⟩ :=
        climbs_climb hclosing hsides bound (o :: chain) rhs tree least t hrhs
          (fun inner hinner => hle.trans (hleft inner hinner).le) (fun _ ho _ => by cases ho; exact hleft)
          (by rw [List.length_cons]; omega)
      dsimp only
      rw [FormParser.bind_apply, hclimb]
      dsimp only
      cases taken with
      | nil =>
        obtain rfl : o :: chain = rest := hsplit
        exact absurd (hstop o rfl) hle.not_gt
      | cons first taken =>
        rw [List.cons_append] at hsplit
        obtain ⟨rfl, rfl⟩ := List.cons_eq_cons.mp hsplit
        rw [List.length_append] at hbound
        have hinner : ∀ inner ∈ tree'.root?, Assoc.right.Nests info inner := by
          intro inner hinner
          obtain hlt | ⟨hsame, rfl⟩ := hleast
          · exact .inl (hlt.trans_le (hroot' inner hinner))
          · obtain hlt | heq := (hroot' inner hinner).lt_or_eq
            · exact .inl hlt
            · obtain hlt | ⟨-, hside⟩ := hnests
              · exact absurd hsame hlt.ne'
              · have hsides' := hsides inner o.info (he.known inner hinner) o.known (heq.symm.trans hsame.symm)
                exact .inr ⟨heq.symm, hsides'.trans hside⟩
        obtain ⟨taken', rest', e', v, r, rfl, hclimb', he', hextended', hpost⟩ :=
          climbs_climbRight hclosing hsides bound rest info e tree' u hinfo he hinner
            (fun o' ho' _ inner hinner => .inl ((hstop o' ho').trans_le (hroot' inner hinner))) (by omega)
        refine ⟨o :: taken ++ taken', rest', e', v, r, ?_, hclimb', he', hextended.trans hextended', hpost⟩
        rw [List.cons_append, List.cons_append, List.append_assoc]

end

/-- No precedence is above all words of eight bits if those of the operators are not. -/
theorem FormParser.rightPrecedence?_le {info next : OperatorInfo} (h : next.precedence ≤ 255) :
  ∀ least ∈ rightPrecedence? info next, least ≤ 255
  := fun _ hleast => (rightPrecedence?_eq_some hleast).2.1.trans h

/--
In parentheses, a chain of operators and operands is read as the tree that has them in the same order, and in which
every operand's root may stand there, on its side of the operator above it. There is no other such tree. Precedences
stay within eight bits.
-/
theorem FormParser.operatorChain_nested (lhs : Expr) (chain : List (Operation s))
    (hclosing : closing.kind = .closeParen) (hsides : SidesAgree (Known s)) :
  (∃ e s' tree, operatorChain lhs ⟨toParts (chain.flatMap Operation.trees), closing⟩ s = (.ok (e, ⟨[], closing⟩), s')
      ∧ e.Shows tree ∧ tree.first = lhs ∧ List.Forall₂ Operation.Reads chain tree.rest ∧ tree.IsNested
      ∧ ∀ tree' : OperatorTree, tree'.IsNested → tree'.first = tree.first → tree'.rest = tree.rest → tree' = tree)
    ∧ ∀ info next : OperatorInfo, next.precedence ≤ 255 → ∀ least ∈ rightPrecedence? info next, least ≤ 255
  := by
  refine ⟨?_, fun _ _ => rightPrecedence?_le⟩
  have hlength : 2 * chain.length ≤ 2 * (chainParts chain).length + 2 + 1 := by
    rw [length_chainParts]
    omega
  obtain ⟨taken, rest, e, s', tree, hsplit, hrun, he, hextended, -, hstop⟩ :=
    climbs_climb hclosing hsides _ chain lhs (.operand lhs) 0 s (.operand rfl) (fun _ h => nomatch h)
      (fun _ _ _ _ h => nomatch h) hlength
  obtain rfl : rest = [] := by
    cases rest with
    | nil => rfl
    | cons o rest => exact absurd (hstop o rfl) (Nat.not_lt_zero _)
  rw [List.append_nil] at hsplit
  subst hsplit
  obtain ⟨new, hnew, hreads⟩ := hextended.rest
  have hrest : tree.rest = new := hnew
  rw [← hrest] at hreads
  refine ⟨e, s', tree, hrun, he.shows, hextended.first, hreads, he.nested, fun tree' hnested hfirst hrest => ?_⟩
  exact he.nested.unique hnested hsides (known_of_reads hreads) hfirst hrest

end

/-! ### A chain that goes up, down and up again -/

/-- A state in which `**` binds to the right, as tightly as possible. -/
def powerState : ParserState :=
  { ParserState.initial with operators := ⟨("**", ⟨255, .right, none⟩) :: OperatorTable.builtins.entries⟩ }

theorem sidesAgree_powerState :
  SidesAgree (Known powerState)
  := by
  have hentries : ∀ a ∈ powerState.operators.entries, ∀ b ∈ powerState.operators.entries,
      a.2.precedence = b.2.precedence → a.2.assoc = b.2.assoc := by decide
  have hmem : ∀ info, Known powerState info → ∃ symbol, (symbol, info) ∈ powerState.operators.entries := by
    rintro info ⟨symbol, hlookup⟩
    obtain ⟨before, after, hentries, -⟩ := List.lookup_eq_some_iff.mp hlookup
    exact ⟨symbol, by rw [hentries]; exact List.mem_append_cons_self⟩
  intro info info' hinfo hinfo' hsame
  obtain ⟨symbol, hsymbol⟩ := hmem info hinfo
  obtain ⟨symbol', hsymbol'⟩ := hmem info' hinfo'
  exact hentries _ hsymbol _ hsymbol' hsame

/-- An operator with a number behind it. -/
def numbered (symbol : String) (info : OperatorInfo) (value : Nat)
    (h : powerState.operators.lookup symbol = some info) : Operation powerState where
  token := ⟨.symbol symbol, .nowhere⟩
  tree := .atom ⟨.int value, .nowhere⟩
  symbol := symbol
  info := info
  operand := .node 0 .nowhere (.literal (.int value))
  kind_eq := rfl
  lookup_eq := h
  closed := .atom rfl rfl nofun
  parses := rfl

/-- The chain `+ 2 ** 3 ** 4 * 5` behind a first operand. -/
def powers : List (Operation powerState) :=
  [numbered "+" ⟨9, .left, some .add⟩ 2 rfl, numbered "**" ⟨255, .right, none⟩ 3 rfl,
    numbered "**" ⟨255, .right, none⟩ 4 rfl, numbered "*" ⟨10, .left, some .mul⟩ 5 rfl]

theorem operatorChain_powers :
  (⟨.closeParen, .nowhere⟩ : Token).kind = .closeParen ∧ SidesAgree (Known powerState)
    ∧ ∃ e s' tree, FormParser.operatorChain (.node 0 .nowhere (.literal (.int 1)))
          ⟨toParts (powers.flatMap Operation.trees), ⟨.closeParen, .nowhere⟩⟩ powerState
        = (.ok (e, ⟨[], ⟨.closeParen, .nowhere⟩⟩), s')
      ∧ e.Shows tree ∧ tree.first = .node 0 .nowhere (.literal (.int 1))
      ∧ List.Forall₂ Operation.Reads powers tree.rest ∧ tree.IsNested
      ∧ ∀ tree' : OperatorTree, tree'.IsNested → tree'.first = tree.first → tree'.rest = tree.rest → tree' = tree
  := ⟨rfl, sidesAgree_powerState, (FormParser.operatorChain_nested _ powers rfl sidesAgree_powerState).1⟩

end FormCompiler
