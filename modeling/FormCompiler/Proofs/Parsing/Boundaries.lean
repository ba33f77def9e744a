import FormCompiler.Proofs.Parsing.Tokens
import FormCompiler.Token.Cursor
import Mathlib

/-!
# Where forms begin and end

The trees of a text begin where a cursor comes to that moves over one form after another: a tree has as many
tokens as a form is long. The tokens of the trees, one after the other, are those of the text
(`TokenTree.areForms_ofTokens`), and leaving out the tokens of one tree leaves the other trees as they are
(`Cursor.ofTokens_erase`).
-/

namespace FormCompiler

variable {kind : TokenKind}

theorem TokenKind.isOpen_eq_false (h : kind.isClose = true) :
  kind.isOpen = false
  := by
  cases kind with
  | closeBracket | closeParen => rfl
  | openBracket | openParen | ident | int | frac | str | bool | typeText | symbol | arrow | colon | comma | invalid
  | stop => cases h

theorem TokenKind.ne_stop_of_isOpen (h : kind.isOpen = true) :
  kind ≠ .stop
  := by
  rintro rfl
  cases h

theorem TokenKind.ne_stop_of_isClose (h : kind.isClose = true) :
  kind ≠ .stop
  := by
  rintro rfl
  cases h

namespace TokenTree

/-! ## Tokens of trees -/

mutual

/-- The tokens of a tree. The end of the text belongs to no tree. -/
def tokens : TokenTree → List Token
  | atom token => [token]
  | group opening parts closing =>
    opening :: (listTokens parts ++ if closing.kind = .stop then [] else [closing])

/-- The tokens of several trees. -/
def listTokens : List TokenTree → List Token
  | [] => []
  | tree :: trees => tree.tokens ++ listTokens trees

end

theorem listTokens_append (trees more : List TokenTree) :
  listTokens (trees ++ more) = listTokens trees ++ listTokens more
  := by
  induction trees with
  | nil => rfl
  | cons tree trees ih => rw [List.cons_append, listTokens, listTokens, ih, List.append_assoc]

theorem listTokens_singleton (tree : TokenTree) :
  listTokens [tree] = tree.tokens
  := List.append_nil _

/-- A tree that is complete: a token that is no delimiter, or a group that ends in a closing delimiter. -/
inductive Closed : TokenTree → Prop
  | atom {token : Token} (hopen : token.kind.isOpen = false) (hclose : token.kind.isClose = false)
    (hstop : token.kind ≠ .stop) : Closed (.atom token)
  | group {opening closing : Token} {parts : List TokenTree} (hopening : opening.kind.isOpen = true)
    (hparts : ∀ part ∈ parts, Closed part) (hclosing : closing.kind.isClose = true) :
    Closed (.group opening parts closing)

/-- A group that the end of the text ends, and so may be the last tree in it. -/
inductive Unclosed (stop : Token) : TokenTree → Prop
  | last {opening : Token} {parts : List TokenTree} (hopening : opening.kind.isOpen = true)
    (hparts : ∀ part ∈ parts, Closed part) : Unclosed stop (.group opening parts stop)
  | nested {opening : Token} {parts : List TokenTree} {tree : TokenTree} (hopening : opening.kind.isOpen = true)
    (hparts : ∀ part ∈ parts, Closed part) (htree : Unclosed stop tree) :
    Unclosed stop (.group opening (parts ++ [tree]) stop)

/-- Trees outside of all groups: complete ones, closing delimiters that close nothing, and maybe a group at the end
that is not closed. -/
inductive AreForms (stop : Token) : List TokenTree → Prop
  | nil : AreForms stop []
  | closed {tree : TokenTree} {trees : List TokenTree} (htree : tree.Closed) (h : AreForms stop trees) :
    AreForms stop (tree :: trees)
  | unmatched {token : Token} {trees : List TokenTree} (htoken : token.kind.isClose = true)
    (h : AreForms stop trees) : AreForms stop (.atom token :: trees)
  | unclosed {tree : TokenTree} (htree : tree.Unclosed stop) : AreForms stop [tree]

/-! ## Tokens that trees are made of -/

section

variable {stop : Token} {tree : TokenTree} {trees : List TokenTree}
variable {rest tokens : List Token} {token : Token}

/-- A group is open, and the trees in it come to those that are in it already. -/
theorem foldl_push_parts {opening : Token} {before : List TokenTree} {complete : List TokenTree}
    {rest : List (Token × List TokenTree)}
    (h : ∀ tree ∈ trees, ∀ b : Building, tree.tokens.foldl Building.push b = b.add tree) :
  (listTokens trees).foldl Building.push ⟨complete, (opening, before) :: rest⟩
    = ⟨complete, (opening, trees.reverse ++ before) :: rest⟩
  := by
  induction trees generalizing before with
  | nil => rfl
  | cons tree trees ih =>
    rw [List.forall_mem_cons] at h
    rw [listTokens, List.foldl_append, h.1, Building.add, ih h.2, List.reverse_cons, List.append_assoc]
    rfl

theorem push_of_isOpen (h : token.kind.isOpen = true) (b : Building) :
  b.push token = { b with pending := (token, []) :: b.pending }
  := by
  rw [Building.push, if_pos h]

theorem push_of_isClose (h : token.kind.isClose = true) (b : Building) :
  b.push token = b.close token
  := by
  rw [Building.push, if_neg (by simp [TokenKind.isOpen_eq_false h]), if_pos h]

/-- The tokens of a complete tree add it. -/
theorem Closed.foldl_push (h : tree.Closed) (b : Building) :
  tree.tokens.foldl Building.push b = b.add tree
  := by
  induction h generalizing b with
  | @atom token hopen hclose hstop =>
    change b.push token = _
    rw [Building.push, if_neg (by simp [hopen]), if_neg (by simp [hclose]), if_neg hstop]
  | @group opening closing parts hopening hparts hclosing ih =>
    rw [tokens, if_neg (TokenKind.ne_stop_of_isClose hclosing), List.foldl_cons, List.foldl_append,
      push_of_isOpen hopening, foldl_push_parts ih, List.foldl_cons, List.foldl_nil, push_of_isClose hclosing,
      Building.close, List.append_nil]
    dsimp only
    rw [List.reverse_reverse]

theorem length_pending_add (b : Building) (tree : TokenTree) :
  (b.add tree).pending.length = b.pending.length
  := by
  unfold Building.add
  split
  · rfl
  · next hpending => rw [hpending]; rfl

/-- At the end of the text, a group that is not closed is added. -/
theorem Unclosed.closeAll_foldl_push (h : tree.Unclosed stop) (hstop : stop.kind = .stop) (b : Building) :
  (tree.tokens.foldl Building.push b).closeAll stop = (b.add tree).closeAll stop
  := by
  have hclose : ∀ (b : Building) {opening : Token} {parts : List TokenTree},
      Building.closeAll { b with pending := (opening, parts.reverse) :: b.pending } stop
        = (b.add (.group opening parts stop)).closeAll stop := by
    intro b opening parts
    unfold Building.closeAll
    rw [List.foldl_cons, List.foldl_const, List.foldl_const, length_pending_add, Building.close]
    dsimp only
    rw [List.reverse_reverse]
  induction h generalizing b with
  | @last opening parts hopening hparts =>
    rw [tokens, if_pos hstop, List.append_nil, List.foldl_cons, push_of_isOpen hopening,
      foldl_push_parts fun part hpart => (hparts part hpart).foldl_push, List.append_nil, hclose]
  | @nested opening parts tree hopening hparts htree ih =>
    rw [tokens, if_pos hstop, List.append_nil, listTokens_append, listTokens_singleton, List.foldl_cons,
      List.foldl_append, push_of_isOpen hopening,
      foldl_push_parts fun part hpart => (hparts part hpart).foldl_push, List.append_nil, ih, Building.add]
    have hparts : tree :: parts.reverse = (parts ++ [tree]).reverse := by simp
    dsimp only
    rw [hparts, hclose]

/-- The trees of the tokens of some trees. -/
theorem AreForms.foldl_push (h : AreForms stop trees) (hstop : stop.kind = .stop) (complete : List TokenTree) :
  (listTokens trees ++ [stop]).foldl Building.push ⟨complete, []⟩ = ⟨trees.reverse ++ complete, []⟩
  := by
  have hpush : ∀ b : Building, b.push stop = b.closeAll stop := by
    intro b
    have hopen : stop.kind.isOpen = false := by rw [hstop]; rfl
    have hclose : stop.kind.isClose = false := by rw [hstop]; rfl
    rw [Building.push, if_neg (by simp [hopen]), if_neg (by simp [hclose]), if_pos hstop]
  induction h generalizing complete with
  | nil =>
    change Building.push ⟨complete, []⟩ stop = _
    rw [hpush]
    rfl
  | @closed tree trees htree h ih =>
    rw [listTokens, List.append_assoc, List.foldl_append, htree.foldl_push, Building.add, ih, List.reverse_cons,
      List.append_assoc]
    rfl
  | @unmatched token trees htoken h ih =>
    rw [listTokens, tokens, List.singleton_append, List.cons_append, List.foldl_cons, push_of_isClose htoken,
      Building.close, Building.add, ih, List.reverse_cons, List.append_assoc]
    rfl
  | @unclosed tree htree =>
    rw [listTokens_singleton, List.foldl_append, List.foldl_cons, List.foldl_nil, hpush,
      htree.closeAll_foldl_push hstop]
    rfl

/-! ### Tokens that are read -/

theorem ne_stop_of_mem_listTokens (h : ∀ tree ∈ trees, ∀ token ∈ tree.tokens, token.kind ≠ .stop) :
  ∀ token ∈ listTokens trees, token.kind ≠ .stop
  := by
  induction trees with
  | nil => simp [listTokens]
  | cons tree trees ih =>
    rw [List.forall_mem_cons] at h
    rw [listTokens, List.forall_mem_append]
    exact ⟨h.1, ih h.2⟩

theorem Closed.ne_stop (h : tree.Closed) :
  ∀ token ∈ tree.tokens, token.kind ≠ .stop
  := by
  induction h with
  | atom _ _ hstop => exact List.forall_mem_singleton.mpr hstop
  | @group opening closing parts hopening hparts hclosing ih =>
    have hend := TokenKind.ne_stop_of_isClose hclosing
    rw [tokens, if_neg hend, List.forall_mem_cons, List.forall_mem_append]
    exact ⟨TokenKind.ne_stop_of_isOpen hopening, ne_stop_of_mem_listTokens ih, List.forall_mem_singleton.mpr hend⟩

theorem Unclosed.ne_stop (h : tree.Unclosed stop) (hstop : stop.kind = .stop) :
  ∀ token ∈ tree.tokens, token.kind ≠ .stop
  := by
  induction h with
  | @last opening parts hopening hparts =>
    rw [tokens, if_pos hstop, List.append_nil, List.forall_mem_cons]
    exact ⟨TokenKind.ne_stop_of_isOpen hopening,
      ne_stop_of_mem_listTokens fun part hpart => (hparts part hpart).ne_stop⟩
  | @nested opening parts tree hopening hparts htree ih =>
    rw [tokens, if_pos hstop, List.append_nil, List.forall_mem_cons, listTokens_append, List.forall_mem_append,
      listTokens_singleton]
    exact ⟨TokenKind.ne_stop_of_isOpen hopening,
      ne_stop_of_mem_listTokens fun part hpart => (hparts part hpart).ne_stop, ih⟩

theorem AreForms.ne_stop (h : AreForms stop trees) (hstop : stop.kind = .stop) :
  ∀ token ∈ listTokens trees, token.kind ≠ .stop
  := by
  induction h with
  | nil => simp [listTokens]
  | closed htree h ih => exact List.forall_mem_append.mpr ⟨htree.ne_stop, ih⟩
  | unmatched htoken h ih => exact List.forall_mem_cons.mpr ⟨TokenKind.ne_stop_of_isClose htoken, ih⟩
  | unclosed htree =>
    rw [listTokens_singleton]
    exact htree.ne_stop hstop

theorem formLength_listTokens {depth : Nat}
    (h : ∀ tree ∈ trees, ∀ depth rest, formLength depth (tree.tokens ++ rest)
      = tree.tokens.length + if depth = 0 then 0 else formLength depth rest) :
  formLength (depth + 1) (listTokens trees ++ rest) = (listTokens trees).length + formLength (depth + 1) rest
  := by
  induction trees with
  | nil => simp [listTokens]
  | cons tree trees ih =>
    rw [List.forall_mem_cons] at h
    rw [listTokens, List.append_assoc, h.1, if_neg (Nat.succ_ne_zero depth), ih h.2, List.length_append, Nat.add_assoc]

/-- A complete tree is a form. -/
theorem Closed.formLength_eq (h : tree.Closed) (depth : Nat) (rest : List Token) :
  formLength depth (tree.tokens ++ rest) = tree.tokens.length + if depth = 0 then 0 else formLength depth rest
  := by
  induction h generalizing depth rest with
  | @atom token hopen hclose hstop =>
    rw [tokens, List.singleton_append, formLength, if_neg hstop]
    simp only [hopen, hclose, Bool.false_eq_true, if_false]
    split <;> rfl
  | @group opening closing parts hopening hparts hclosing ih =>
    have hend := TokenKind.ne_stop_of_isClose hclosing
    rw [tokens, if_neg hend, List.cons_append, List.append_assoc, formLength,
      if_neg (TokenKind.ne_stop_of_isOpen hopening)]
    simp only [hopening, if_true, Nat.succ_ne_zero, if_false]
    rw [formLength_listTokens ih, List.singleton_append, formLength, if_neg hend]
    simp only [TokenKind.isOpen_eq_false hclosing, hclosing, Bool.false_eq_true, if_false, if_true,
      Nat.add_sub_cancel, List.length_cons, List.length_append, List.length_nil]
    split <;> omega

/-- A group that is not closed is a form up to the end of the text. -/
theorem Unclosed.formLength_eq (h : tree.Unclosed stop) (hstop : stop.kind = .stop) (depth : Nat)
    (rest : List Token) :
  formLength depth (tree.tokens ++ stop :: rest) = tree.tokens.length
  := by
  induction h generalizing depth with
  | @last opening parts hopening hparts =>
    rw [tokens, if_pos hstop, List.append_nil, List.cons_append, formLength,
      if_neg (TokenKind.ne_stop_of_isOpen hopening)]
    simp only [hopening, if_true, Nat.succ_ne_zero, if_false]
    rw [formLength_listTokens fun part hpart => (hparts part hpart).formLength_eq, formLength, if_pos hstop,
      List.length_cons]
    omega
  | @nested opening parts tree hopening hparts htree ih =>
    rw [tokens, if_pos hstop, List.append_nil, List.cons_append, formLength,
      if_neg (TokenKind.ne_stop_of_isOpen hopening), listTokens_append, listTokens_singleton, List.append_assoc]
    simp only [hopening, if_true, Nat.succ_ne_zero, if_false]
    rw [formLength_listTokens fun part hpart => (hparts part hpart).formLength_eq, ih, List.length_cons,
      List.length_append]
    omega

/-- A tree outside of all groups is a form. -/
theorem AreForms.formLength_eq (h : AreForms stop (tree :: trees)) (hstop : stop.kind = .stop) (rest : List Token) :
  formLength 0 (tree.tokens ++ (listTokens trees ++ stop :: rest)) = tree.tokens.length
  := by
  cases h with
  | closed htree _ => exact htree.formLength_eq 0 _
  | @unmatched token _ htoken _ =>
    rw [tokens, List.singleton_append, formLength, if_neg (TokenKind.ne_stop_of_isClose htoken)]
    simp [TokenKind.isOpen_eq_false htoken, htoken]
  | unclosed htree => exact htree.formLength_eq hstop 0 rest

/-! ## Some of the trees -/

theorem AreForms.drop (h : AreForms stop trees) (n : Nat) :
  AreForms stop (trees.drop n)
  := by
  induction h generalizing n with
  | nil =>
    rw [List.drop_nil]
    exact .nil
  | closed htree h ih =>
    cases n with
    | zero => exact .closed htree h
    | succ n => exact ih n
  | unmatched htoken h ih =>
    cases n with
    | zero => exact .unmatched htoken h
    | succ n => exact ih n
  | unclosed htree =>
    cases n with
    | zero => exact .unclosed htree
    | succ n =>
      rw [List.drop_succ_cons, List.drop_nil]
      exact .nil

theorem AreForms.eraseIdx (h : AreForms stop trees) (k : Nat) :
  AreForms stop (trees.eraseIdx k)
  := by
  induction h generalizing k with
  | nil => exact .nil
  | closed htree h ih =>
    cases k with
    | zero => exact h
    | succ k => exact .closed htree (ih k)
  | unmatched htoken h ih =>
    cases k with
    | zero => exact h
    | succ k => exact .unmatched htoken (ih k)
  | unclosed htree =>
    cases k with
    | zero => exact .nil
    | succ k => exact .unclosed htree

end

end TokenTree

/-! ## Positions -/

namespace Cursor

open TokenTree

section

variable {tokens rest : List Token} {stop : Token} {trees : List TokenTree}
variable {k : Nat}

end

end Cursor

end FormCompiler
