import FormCompiler.Parsing.TokenTree
import FormCompiler.Proofs.Token.Literal

/-!
# Tokens of a text

The tokens of a text are those that the lexer scans, an invalid token for each error and the end of the
text. Trees of tokens have no other tokens (`TokenTree.all_ofTokens`). So what holds of all tokens that can
be scanned holds of all tokens that are parsed; integers, for example, are in range (`isScanned_of_lex`).
-/

namespace FormCompiler

/-! ## Trees -/

/-- All tokens of a tree have a property. -/
inductive TokenTree.All (p : Token → Prop) : TokenTree → Prop
  | atom {token : Token} (h : p token) : All p (.atom token)
  | group {opening closing : Token} {parts : List TokenTree} (hopening : p opening)
    (hparts : ∀ part ∈ parts, All p part) (hclosing : p closing) : All p (.group opening parts closing)

namespace TokenTree

variable {p : Token → Prop}

/-- All tokens that have been read so far have a property. -/
structure Building.All (p : Token → Prop) (b : Building) : Prop where
  complete : ∀ tree ∈ b.complete, tree.All p
  pending : ∀ group ∈ b.pending, p group.1 ∧ ∀ tree ∈ group.2, tree.All p

namespace Building.All

variable {b : Building}

theorem add (hb : b.All p) {tree : TokenTree} (h : tree.All p) :
  (b.add tree).All p
  := by
  unfold Building.add
  split
  · exact ⟨List.forall_mem_cons.mpr ⟨h, hb.complete⟩, hb.pending⟩
  · next opening parts rest hpending =>
    have hopen := hpending ▸ hb.pending
    rw [List.forall_mem_cons] at hopen
    exact ⟨hb.complete, List.forall_mem_cons.mpr ⟨⟨hopen.1.1, List.forall_mem_cons.mpr ⟨h, hopen.1.2⟩⟩, hopen.2⟩⟩

theorem close (hb : b.All p) {closing : Token} (h : p closing) :
  (b.close closing).All p
  := by
  unfold Building.close
  split
  · exact hb.add (.atom h)
  · next opening parts rest hpending =>
    have hopen := hpending ▸ hb.pending
    rw [List.forall_mem_cons] at hopen
    have hgroup : (group opening parts.reverse closing).All p :=
      .group hopen.1.1 (fun tree htree => hopen.1.2 tree (List.mem_reverse.mp htree)) h
    have hrest : Building.All p { b with pending := rest } := ⟨hb.complete, hopen.2⟩
    exact hrest.add hgroup

theorem push (hb : b.All p) {token : Token} (h : p token) :
  (b.push token).All p
  := by
  have hcloseAll : ∀ (groups : List (Token × List TokenTree)) (b : Building), b.All p →
      (groups.foldl (fun b _ => b.close token) b).All p := by
    intro groups
    induction groups with
    | nil => exact fun _ hb => hb
    | cons _ groups ih => exact fun _ hb => ih _ (hb.close h)
  unfold Building.push
  split
  · exact ⟨hb.complete, List.forall_mem_cons.mpr ⟨⟨h, List.forall_mem_nil _⟩, hb.pending⟩⟩
  · split
    · exact hb.close h
    · split
      · exact hcloseAll b.pending b hb
      · exact hb.add (.atom h)

end Building.All

theorem mem_of_mem_upToStop {token : Token} {tokens : List Token} (h : token ∈ upToStop tokens) :
  token ∈ tokens
  := by
  induction tokens with
  | nil => exact h
  | cons first tokens ih =>
    rw [upToStop] at h
    split at h
    · rw [List.mem_singleton.mp h]
      exact List.mem_cons_self ..
    · rcases List.mem_cons.mp h with rfl | h
      · exact List.mem_cons_self ..
      · exact List.mem_cons_of_mem _ (ih h)

/-- All tokens of the trees are among those that the trees are made of. -/
theorem all_ofTokens {tokens : List Token} (h : ∀ token ∈ tokens, p token) :
  ∀ tree ∈ ofTokens tokens, tree.All p
  := by
  have hall : ∀ (tokens : List Token) (b : Building), (∀ token ∈ tokens, p token) → b.All p →
      (tokens.foldl Building.push b).All p := by
    intro tokens
    induction tokens with
    | nil => exact fun _ _ hb => hb
    | cons token tokens ih =>
      intro b h hb
      rw [List.forall_mem_cons] at h
      exact ih _ h.2 (hb.push h.1)
  intro tree htree
  have hread := hall (upToStop tokens) ⟨[], []⟩ (fun token htoken => h token (mem_of_mem_upToStop htoken))
    ⟨List.forall_mem_nil _, List.forall_mem_nil _⟩
  exact hread.complete tree (List.mem_reverse.mp htree)

end TokenTree

/-! ## Tokens that can be scanned -/

/-- A kind that a token of a text can have: it is not invalid, and an integer is in range. -/
def TokenKind.IsScanned : TokenKind → Prop
  | .invalid => False
  | .int n => isInt64 n = true
  | _ => True

theorem Literal.isInt64_of_readMagnitude {negative : Bool} {radix : Nat} {digits : List Char} {n : Int}
    (h : readMagnitude negative radix digits = .ok n) :
  isInt64 n = true
  := by
  unfold readMagnitude at h
  split at h
  · rw [applySign_eq] at h
    split at h
    · next hrange => exact Except.ok.inj h ▸ hrange
    · cases h
  · cases h

theorem Literal.isInt64_of_parseMarked {text : List Char} {n : Int} (h : parseMarked text = .ok n) :
  isInt64 n = true
  := by
  unfold parseMarked at h
  dsimp only at h
  split at h
  · cases h
  · split at h
    · cases h
    · exact isInt64_of_readMagnitude h

theorem isScanned_of_ofExcept {α : Type} {make : α → TokenKind} {value : Except LexErrorKind α} {kind : TokenKind}
    (hmake : ∀ a, value = .ok a → (make a).IsScanned) (h : Scanned.ofExcept make value = .token kind) :
  kind.IsScanned
  := by
  cases value with
  | error e => cases h
  | ok a =>
    cases h
    exact hmake a rfl

theorem isScanned_of_scan {c : Char} {text : List Char} {kind : TokenKind} (h : (scan c text).2 = .token kind) :
  kind.IsScanned
  := by
  have hdelimiter : (delimiterKind c).IsScanned := by
    unfold delimiterKind
    split <;> trivial
  unfold scan at h
  dsimp only at h
  split at h
  · cases h
  · split at h
    case h_3 => split at h <;> cases h
    case h_7 =>
      dsimp only at h
      exact isScanned_of_ofExcept (fun _ => Literal.isInt64_of_parseMarked) h
    case h_8 =>
      dsimp only at h
      exact isScanned_of_ofExcept (fun _ => Literal.isInt64_of_readMagnitude) h
    case h_9 =>
      dsimp only at h
      exact isScanned_of_ofExcept (by simp [TokenKind.IsScanned]) h
    case h_10 =>
      dsimp only at h
      exact isScanned_of_ofExcept (by simp [TokenKind.IsScanned]) h
    all_goals cases h
    · exact hdelimiter
    all_goals trivial

theorem isScanned_of_mem_pieces {token : Token} : ∀ (text : List Char) {offset taken : Nat},
    .token token ∈ pieces offset taken text → token.kind.IsScanned
  | [], _, _, h => by
    rw [pieces] at h
    cases h
  | c :: text, offset, taken + 1, h => by
    rw [pieces] at h
    exact isScanned_of_mem_pieces text h
  | c :: text, offset, 0, h => by
    have hscan : ∀ kind, (scan c text).2 = .token kind → kind.IsScanned := fun _ => isScanned_of_scan
    rw [pieces] at h
    generalize scan c text = scanned at h hscan
    obtain ⟨n, scanned⟩ := scanned
    rcases List.mem_append.mp h with h | h
    · cases scanned with
      | token kind =>
        cases List.mem_singleton.mp h
        exact hscan kind rfl
      | skipped => cases h
      | wrong kind => cases List.mem_singleton.mp h
    · exact isScanned_of_mem_pieces text h

/-- A token of a text has been scanned, or it stands for an error. -/
theorem isScanned_of_lex {source : String} {token : Token} (h : token ∈ (Token.lex source).tokens) :
  token.kind.IsScanned ∨ token.kind = .invalid ∧ (Token.lex source).errors ≠ []
  := by
  obtain ⟨piece, hpiece, rfl⟩ := List.mem_map.mp h
  cases piece with
  | error e =>
    refine .inr ⟨rfl, fun hnone => absurd (List.filterMap_eq_nil_iff.mp hnone _ hpiece) ?_⟩
    simp [Piece.error?]
  | token token =>
    left
    rcases List.mem_append.mp hpiece with hpiece | hpiece
    · exact isScanned_of_mem_pieces _ hpiece
    · cases List.mem_singleton.mp hpiece
      trivial

end FormCompiler
