import FormCompiler.Proofs.Parsing.Tokens
import FormCompiler.Proofs.Source.Lines
import Mathlib.Data.List.Infix

/-!
# The layout of a source text

The tokens of a text stand one behind the other, each of them on at least one character, and between them
there are only blanks and comments (`Layout`): nothing of the text is lost and nothing is read twice,
whatever is wrong with it. The errors of a text are those of its invalid tokens. A `Lexer` that scans for one
token at a time gives the same tokens and errors.
-/

namespace FormCompiler

variable {text : List Char} {n offset taken : Nat}

namespace Pattern

theorem run_le (p : Char → Bool) (text : List Char) :
  run p text ≤ text.length
  := (List.takeWhile_prefix p).length_le

theorem take_run (p : Char → Bool) (text : List Char) :
  text.take (run p text) = text.takeWhile p
  := (List.prefix_iff_eq_take.mp (List.takeWhile_prefix p)).symm

theorem drop_run (p : Char → Bool) (text : List Char) :
  text.drop (run p text) = text.dropWhile p
  := by
  have hparts := List.takeWhile_append_dropWhile (p := p) (l := text)
  conv_lhs => rw [← hparts, run]
  rw [List.drop_append_of_le_length] <;> simp

theorem decimalRun_le (text : List Char) :
  decimalRun text ≤ text.length
  := by
  unfold decimalRun
  split
  · next c text =>
    have hrun := run_le isDigitChar text
    split <;> grind
  · exact Nat.zero_le _

theorem exponentRun_le (text : List Char) :
  exponentRun text ≤ text.length
  := by
  fun_cases exponentRun text with
  | case2 e text _ sign digits hparts _ =>
    have hsign : sign + digits.length ≤ text.length := by
      split at hparts <;> grind
    have hdigits := run_le Char.isDigit digits
    rw [List.length_cons]
    omega
  | _ => exact Nat.zero_le _

theorem markedRun_le (text : List Char) :
  markedRun text ≤ text.length
  := by
  unfold markedRun
  split
  · next mark text =>
    have hrun := run_le isTypeChar text
    split <;> grind
  · exact Nat.zero_le _

theorem fractionRun_le (text : List Char) :
  fractionRun text ≤ text.length
  := by
  have hwhole := decimalRun_le text
  unfold fractionRun
  split
  · exact Nat.zero_le _
  · split
    · next rest hrest =>
      have hlength := congrArg List.length hrest
      rw [List.length_drop, List.length_cons] at hlength
      have hpart := decimalRun_le rest
      have hexponent := exponentRun_le (rest.drop (decimalRun rest))
      rw [List.length_drop] at hexponent
      split <;> grind
    · exact Nat.zero_le _

theorem signed_le {length : List Char → Nat} (h : ∀ text, length text ≤ text.length) (text : List Char) :
  signed length text ≤ text.length
  := by
  unfold signed
  split
  · next text =>
    have hlength := h text
    split <;> grind
  · exact h _

/-- A match is a part of the text. -/
theorem length_le (p : Pattern) (text : List Char) :
  p.length text ≤ text.length
  := by
  have hrun := run_le
  have hmarked := signed_le markedRun_le text
  have hinteger := signed_le decimalRun_le text
  have hfraction := signed_le fractionRun_le text
  unfold length
  split <;> grind

/-- If there is a match, the longest one is that of some pattern. -/
theorem longest_eq (text : List Char) :
  (longest text).2 = 0 ∨ (longest text).2 = (longest text).1.length text
  := by
  have hbest : ∀ (matches' : List (Pattern × Nat)) (best : Pattern × Nat),
      matches'.foldl better best = best ∨ matches'.foldl better best ∈ matches' := by
    intro matches'
    induction matches' with
    | nil => exact fun best => .inl rfl
    | cons next matches' ih =>
      intro best
      rw [List.foldl_cons]
      rcases ih (better best next) with h | h
      · rw [h, better]
        split
        · exact .inr (List.mem_cons_self ..)
        · exact .inl rfl
      · exact .inr (List.mem_cons_of_mem _ h)
  rcases hbest (all.map fun p => (p, p.length text)) (blank, 0) with h | h
  · exact .inl (congrArg Prod.snd h)
  · obtain ⟨p, -, hp⟩ := List.mem_map.mp h
    right
    rw [longest, ← hp]

end Pattern

/-! ## What a scan takes -/

/-- A block comment ends at the first `*/`. -/
theorem commentEnd?_eq (h : commentEnd? text = some n) :
  ∃ body rest, text = body ++ '*' :: '/' :: rest ∧ n = body.length + 2 ∧ ¬ ['*', '/'] <:+: body ++ ['*']
  := by
  fun_induction commentEnd? text generalizing n with
  | case1 rest =>
    cases h
    exact ⟨[], rest, rfl, rfl, by decide⟩
  | case2 c text hstart ih =>
    obtain ⟨m, hm, rfl⟩ := Option.map_eq_some_iff.mp h
    obtain ⟨body, rest, rfl, rfl, hfirst⟩ := ih hm
    refine ⟨c :: body, rest, rfl, by simp, ?_⟩
    rw [List.cons_append, List.infix_cons_iff, not_or]
    refine ⟨fun hprefix => ?_, hfirst⟩
    obtain ⟨hc, hbody⟩ := List.cons_prefix_cons.mp hprefix
    cases body with
    | nil => simp at hbody
    | cons d body =>
      obtain ⟨hd, -⟩ := List.cons_prefix_cons.mp hbody
      exact hstart _ hc.symm (by rw [← hd]; rfl)
  | case3 => cases h

theorem scanString_le (out : List Char) (bad : Option Char) (count : Nat) (text : List Char) :
  (Literal.scanString out bad count text).1 ≤ count + text.length
  := by
  fun_induction Literal.scanString out bad count text <;> grind

theorem typeArguments_le (depth count : Nat) (text : List Char) :
  typeArguments depth count text ≤ count + text.length
  := by
  fun_induction typeArguments depth count text <;> grind

/-- A scan takes at least one character, and does not go beyond the text. -/
theorem scan_bounds (c : Char) (text : List Char) :
  0 < (scan c text).1 ∧ (scan c text).1 ≤ text.length + 1
  := by
  have hlength : (Pattern.longest (c :: text)).2 ≤ text.length + 1 := by
    rcases Pattern.longest_eq (c :: text) with h | h
    · exact h ▸ Nat.zero_le _
    · exact h ▸ Pattern.length_le _ _
  have hdrop : ((c :: text).drop (Pattern.longest (c :: text)).2).length
      = text.length + 1 - (Pattern.longest (c :: text)).2 := by simp
  unfold scan
  dsimp only
  split
  · exact ⟨Nat.one_pos, Nat.le_add_left 1 _⟩
  · next hne =>
    split
    case h_3 =>
      split
      · next m hm =>
        obtain ⟨body, rest, hrest, rfl, -⟩ := commentEnd?_eq hm
        have hrest := congrArg List.length hrest
        grind
      · grind
    case h_10 =>
      have hstring := scanString_le [] none 0 ((c :: text).drop (Pattern.longest (c :: text)).2)
      grind
    case h_11 =>
      have harguments := typeArguments_le 0 0 ((c :: text).drop (Pattern.longest (c :: text)).2)
      grind
    all_goals grind

/-! ## Between tokens -/

/-- Text that stands for nothing, before the text `after`. -/
inductive Separates (after : List Char) : List Char → Prop
  | blanks {text : List Char} (h : ∀ c ∈ text, isBlank c = true) : Separates after text
  /-- A line comment goes on to the end of its line. -/
  | line {body : List Char} (hbody : ∀ c ∈ body, c ≠ '\n') (hend : ∀ c ∈ after.head?, c = '\n') :
    Separates after ('/' :: '/' :: body)
  /-- A block comment ends at the first `*/`. -/
  | block {body : List Char} (hfirst : ¬ ['*', '/'] <:+: body ++ ['*']) :
    Separates after ('/' :: '*' :: (body ++ ['*', '/']))

/-- Blanks and comments before the text `after`. -/
inductive Gap (after : List Char) : List Char → Prop
  | nil : Gap after []
  | cons {first rest : List Char} (hfirst : Separates (rest ++ after) first) (h : Gap after rest) :
    Gap after (first ++ rest)

theorem separates_blank (text : List Char) :
  Separates (text.drop (Pattern.blank.length text)) (text.take (Pattern.blank.length text))
  := by
  have hlength : Pattern.blank.length text = Pattern.run isBlank text := by rw [Pattern.length]
  rw [hlength, Pattern.take_run]
  exact .blanks (List.all_eq_true.mp List.all_takeWhile)

theorem separates_lineComment (h : Pattern.lineComment.length text ≠ 0) :
  Separates (text.drop (Pattern.lineComment.length text)) (text.take (Pattern.lineComment.length text))
  := by
  obtain ⟨body, rfl⟩ : ∃ body, text = '/' :: '/' :: body := by
    unfold Pattern.length at h
    split at h <;> grind
  have hlength : Pattern.lineComment.length ('/' :: '/' :: body) = Pattern.run (· != '\n') body + 1 + 1 := by
    rw [Pattern.length, Nat.add_comm]
  rw [hlength, List.take_succ_cons, List.take_succ_cons, List.drop_succ_cons, List.drop_succ_cons, Pattern.take_run,
    Pattern.drop_run]
  refine .line (fun c hc => ?_) fun c hc => ?_
  · simpa using List.all_eq_true.mp List.all_takeWhile c hc
  · have hhead := List.head?_dropWhile_not (· != '\n') body
    rw [Option.mem_def.mp hc] at hhead
    simpa using hhead

theorem separates_blockComment (h : Pattern.blockComment.length text ≠ 0)
    (hend : commentEnd? (text.drop (Pattern.blockComment.length text)) = some n) :
  Separates (text.drop (Pattern.blockComment.length text + n)) (text.take (Pattern.blockComment.length text + n))
  := by
  obtain ⟨text, rfl⟩ : ∃ rest, text = '/' :: '*' :: rest := by
    unfold Pattern.length at h
    split at h <;> grind
  have hlength : Pattern.blockComment.length ('/' :: '*' :: text) = 2 := by rw [Pattern.length]
  rw [hlength] at hend ⊢
  obtain ⟨body, rest, hbody, rfl, hfirst⟩ := commentEnd?_eq hend
  obtain rfl : text = body ++ '*' :: '/' :: rest := hbody
  have htake : ('/' :: '*' :: (body ++ '*' :: '/' :: rest)).take (2 + (body.length + 2))
      = '/' :: '*' :: (body ++ ['*', '/']) := by
    rw [Nat.add_comm, List.take_succ_cons, List.take_succ_cons, List.take_length_add_append]
    rfl
  rw [htake]
  exact .block hfirst

theorem ofExcept_ne_skipped {α : Type} {make : α → TokenKind} (value : Except LexErrorKind α) :
  Scanned.ofExcept make value ≠ .skipped
  := by
  cases value <;> simp [Scanned.ofExcept]

/-- What a scan skips stands for nothing. -/
theorem separates_of_scan {c : Char} (h : (scan c text).2 = .skipped) :
  Separates ((c :: text).drop (scan c text).1) ((c :: text).take (scan c text).1)
  := by
  have hlongest := Pattern.longest_eq (c :: text)
  unfold scan at h ⊢
  dsimp only at h ⊢
  split at h
  · cases h
  · next hne =>
    rw [if_neg hne]
    replace hlongest := hlongest.resolve_left hne
    rw [hlongest] at hne
    generalize (Pattern.longest (c :: text)).1 = p at *
    rw [hlongest] at h ⊢
    split at h
    · exact separates_blank _
    · exact separates_lineComment hne
    · split at h
      · next m hm => exact separates_blockComment hne hm
      · cases h
    case h_7 =>
      dsimp only at h
      exact absurd h (ofExcept_ne_skipped _)
    case h_8 =>
      dsimp only at h
      exact absurd h (ofExcept_ne_skipped _)
    case h_9 =>
      dsimp only at h
      exact absurd h (ofExcept_ne_skipped _)
    case h_10 =>
      dsimp only at h
      exact absurd h (ofExcept_ne_skipped _)
    all_goals cases h

theorem exists_of_ofExcept {α : Type} {make : α → TokenKind} {value : Except LexErrorKind α} {kind : TokenKind}
    (h : Scanned.ofExcept make value = .token kind) :
  ∃ a, kind = make a
  := by
  cases value with
  | error e => cases h
  | ok a => exact ⟨a, (Scanned.token.inj h).symm⟩

/-- The end of the text is not scanned. -/
theorem ne_stop_of_scan {c : Char} {kind : TokenKind} (h : (scan c text).2 = .token kind) :
  kind ≠ .stop
  := by
  have hdelimiter : delimiterKind c ≠ .stop := by
    unfold delimiterKind
    split <;> simp
  rintro rfl
  unfold scan at h
  dsimp only at h
  split at h
  · cases h
  · split at h
    case h_3 => split at h <;> cases h
    case h_4 => exact hdelimiter (Scanned.token.inj h)
    case h_7 =>
      dsimp only at h
      obtain ⟨_, ⟨⟩⟩ := exists_of_ofExcept h
    case h_8 =>
      dsimp only at h
      obtain ⟨_, ⟨⟩⟩ := exists_of_ofExcept h
    case h_9 =>
      dsimp only at h
      obtain ⟨_, ⟨⟩⟩ := exists_of_ofExcept h
    case h_10 =>
      dsimp only at h
      obtain ⟨_, ⟨⟩⟩ := exists_of_ofExcept h
    all_goals cases h

/-! ## Layouts -/

/-- The tokens of a text that starts at an offset. -/
inductive Layout : Nat → List Char → List Token → Prop
  | stop {offset : Nat} {gap : List Char} (hgap : Gap [] gap) :
    Layout offset gap [⟨.stop, .point (offset + byteLength gap)⟩]
  | token {offset : Nat} {gap lexeme rest : List Char} {kind : TokenKind} {tokens : List Token}
    (hgap : Gap (lexeme ++ rest) gap) (hlexeme : lexeme ≠ []) (hkind : kind ≠ .stop)
    (h : Layout (offset + byteLength gap + byteLength lexeme) rest tokens) :
    Layout offset (gap ++ (lexeme ++ rest))
      (⟨kind, ⟨offset + byteLength gap, offset + byteLength gap + byteLength lexeme⟩⟩ :: tokens)

/-- Text that stands for nothing may come first. -/
theorem Layout.skip {first : List Char} {tokens : List Token} (hfirst : Separates text first)
    (h : Layout (offset + byteLength first) text tokens) :
  Layout offset (first ++ text) tokens
  := by
  cases h with
  | stop hgap =>
    rw [Nat.add_assoc, ← byteLength_append]
    refine .stop (.cons ?_ hgap)
    rwa [List.append_nil]
  | token hgap hlexeme hkind h =>
    rw [Nat.add_assoc offset, ← byteLength_append] at h ⊢
    rw [← List.append_assoc]
    exact .token (.cons hfirst hgap) hlexeme hkind h

/-- The characters that belong to something else come first. -/
theorem pieces_eq (h : taken ≤ text.length) :
  pieces offset taken text = pieces (offset + byteLength (text.take taken)) 0 (text.drop taken)
  := by
  induction text generalizing offset taken with
  | nil => rw [List.drop_nil, pieces, pieces]
  | cons c text ih =>
    cases taken with
    | zero => rfl
    | succ taken =>
      rw [pieces, ih (Nat.le_of_succ_le_succ h), Nat.add_assoc, List.drop_succ_cons, List.take_succ_cons]
      rfl

/-- What is scanned first, and the pieces behind it. -/
theorem pieces_cons (offset : Nat) (c : Char) (text : List Char) :
  pieces offset 0 (c :: text)
    = ((scan c text).2.piece? ⟨offset, offset + byteLength ((c :: text).take (scan c text).1)⟩).toList
      ++ pieces (offset + byteLength ((c :: text).take (scan c text).1)) 0 ((c :: text).drop (scan c text).1)
  := by
  obtain ⟨hpos, hle⟩ := scan_bounds c text
  obtain ⟨n, hn⟩ := Nat.exists_eq_add_of_lt hpos
  rw [Nat.zero_add] at hn
  rw [pieces]
  dsimp only
  rw [hn, pieces_eq (by omega), Nat.add_assoc]
  rfl

/-- The pieces of a text, and its end. -/
theorem layout_pieces (offset : Nat) (text : List Char) :
  Layout offset text
    ((pieces offset 0 text).map Piece.toToken ++ [⟨.stop, .point (offset + byteLength text)⟩])
  := by
  induction hlength : text.length using Nat.strongRecOn generalizing offset text with
  | _ length ih =>
    cases text with
    | nil => exact .stop .nil
    | cons c text =>
      obtain ⟨hpos, hle⟩ := scan_bounds c text
      rw [pieces_cons]
      have hsplit := List.take_append_drop (scan c text).1 (c :: text)
      have hlexeme : (c :: text).take (scan c text).1 ≠ [] := by simp [Nat.ne_of_gt hpos]
      have hshorter : ((c :: text).drop (scan c text).1).length < length := by
        rw [← hlength, List.length_drop]
        exact Nat.sub_lt (Nat.succ_pos _) hpos
      have hrest := ih _ hshorter (offset + byteLength ((c :: text).take (scan c text).1)) _ rfl
      rw [Nat.add_assoc, ← byteLength_append, hsplit] at hrest
      have htoken : ∀ kind, kind ≠ .stop → Layout offset (c :: text)
          (⟨kind, ⟨offset, offset + byteLength ((c :: text).take (scan c text).1)⟩⟩ :: _) :=
        fun kind hkind => hsplit ▸ @Layout.token offset [] _ _ kind _ .nil hlexeme hkind hrest
      cases hscan : (scan c text).2 with
      | skipped =>
        rw [← hsplit]
        exact .skip (separates_of_scan hscan) (hsplit.symm ▸ hrest)
      | token kind => exact htoken kind (ne_stop_of_scan hscan)
      | wrong kind => exact htoken .invalid (by simp)

/-! ## Tokens and gaps -/

/-- A span covers a part of a text, which stands behind the characters `before`. -/
def Span.Covers (span : Span) (before text : List Char) : Prop :=
  span = ⟨byteLength before, byteLength before + byteLength text⟩

/-- The spans before the tokens, each up to the next token. -/
def gapsBefore (offset : Nat) : List Token → List Span
  | [] => []
  | token :: tokens => ⟨offset, token.span.start⟩ :: gapsBefore token.span.stop tokens

/-- How the tokens and the errors of a text belong to it. -/
structure Lexed.Covers (lexed : Lexed) (source : List Char) : Prop where
  /-- The end of the text comes last, and only there. -/
  stop : ∃ tokens, lexed.tokens = tokens ++ [⟨.stop, .point (byteLength source)⟩] ∧ ∀ token ∈ tokens, token.kind ≠ .stop
  nonempty : ∀ token ∈ lexed.tokens, token.kind ≠ .stop → token.span.start < token.span.stop
  /-- A token starts and ends between characters. -/
  boundaries : ∀ token ∈ lexed.tokens, ∃ before lexeme after,
    source = before ++ (lexeme ++ after) ∧ token.span.Covers before lexeme
  increasing : lexed.tokens.Pairwise fun token later => token.span.stop ≤ later.span.start
  /-- Everything else is blanks and comments. -/
  gaps : ∀ span ∈ gapsBefore 0 lexed.tokens, ∃ before gap after,
    source = before ++ (gap ++ after) ∧ span.Covers before gap ∧ Gap after gap
  errors : lexed.errors.map (·.span) = (lexed.tokens.filter fun token => token.kind = .invalid).map (·.span)

namespace Layout

variable {offset : Nat} {text : List Char} {tokens : List Token}

variable (h : Layout offset text tokens)

include h

theorem exists_stop :
  ∃ scanned, tokens = scanned ++ [⟨.stop, .point (offset + byteLength text)⟩] ∧ ∀ token ∈ scanned, token.kind ≠ .stop
  := by
  induction h with
  | stop hgap => exact ⟨[], rfl, List.forall_mem_nil _⟩
  | @token offset gap lexeme rest kind tokens hgap hlexeme hkind h ih =>
    obtain ⟨scanned, rfl, hscanned⟩ := ih
    have hlength : offset + byteLength gap + byteLength lexeme + byteLength rest
        = offset + byteLength (gap ++ (lexeme ++ rest)) := by
      rw [byteLength_append, byteLength_append, Nat.add_assoc, Nat.add_assoc]
    rw [hlength]
    exact ⟨_ :: scanned, List.cons_append.symm, List.forall_mem_cons.mpr ⟨hkind, hscanned⟩⟩

theorem start_lt_stop :
  ∀ token ∈ tokens, token.kind ≠ .stop → token.span.start < token.span.stop
  := by
  induction h with
  | stop hgap => exact List.forall_mem_singleton.mpr fun hkind => absurd rfl hkind
  | token hgap hlexeme hkind h ih =>
    exact List.forall_mem_cons.mpr ⟨fun _ => Nat.lt_add_of_pos_right (byteLength_pos hlexeme), ih⟩

/-- All tokens are behind the offset, each behind the ones before it. -/
theorem pairwise_stop_le :
  (∀ token ∈ tokens, offset ≤ token.span.start)
  ∧ tokens.Pairwise fun token later => token.span.stop ≤ later.span.start
  := by
  induction h with
  | stop hgap => exact ⟨List.forall_mem_singleton.mpr (Nat.le_add_right ..), List.pairwise_singleton ..⟩
  | token hgap hlexeme hkind h ih =>
    refine ⟨List.forall_mem_cons.mpr ⟨Nat.le_add_right .., fun later hlater => ?_⟩, List.pairwise_cons.mpr ih⟩
    exact Nat.le_trans (Nat.le_trans (Nat.le_add_right ..) (Nat.le_add_right ..)) (ih.1 later hlater)

theorem exists_lexeme (before : List Char) (hbefore : byteLength before = offset) :
  ∀ token ∈ tokens, ∃ first lexeme after,
    before ++ text = first ++ (lexeme ++ after) ∧ token.span.Covers first lexeme
  := by
  induction h generalizing before with
  | @stop offset gap hgap =>
    refine List.forall_mem_singleton.mpr ⟨before ++ gap, [], [], by simp, ?_⟩
    rw [Span.Covers, byteLength_append, hbefore]
    rfl
  | @token offset gap lexeme rest kind tokens hgap hlexeme hkind h ih =>
    have hstart : byteLength (before ++ gap) = offset + byteLength gap := by rw [byteLength_append, hbefore]
    refine List.forall_mem_cons.mpr ⟨⟨before ++ gap, lexeme, rest, by simp, ?_⟩, fun token htoken => ?_⟩
    · rw [Span.Covers, hstart]
    · have hnext : byteLength (before ++ gap ++ lexeme) = offset + byteLength gap + byteLength lexeme := by
        rw [byteLength_append, hstart]
      simpa using ih _ hnext token htoken

theorem exists_gap (before : List Char) (hbefore : byteLength before = offset) :
  ∀ span ∈ gapsBefore offset tokens, ∃ first gap after,
    before ++ text = first ++ (gap ++ after) ∧ span.Covers first gap ∧ Gap after gap
  := by
  induction h generalizing before with
  | @stop offset gap hgap =>
    exact List.forall_mem_singleton.mpr ⟨before, gap, [], by simp, by rw [Span.Covers, hbefore]; rfl, hgap⟩
  | @token offset gap lexeme rest kind tokens hgap hlexeme hkind h ih =>
    refine List.forall_mem_cons.mpr ⟨⟨before, gap, lexeme ++ rest, rfl, by rw [Span.Covers, hbefore], hgap⟩, ?_⟩
    intro span hspan
    have hnext : byteLength (before ++ gap ++ lexeme) = offset + byteLength gap + byteLength lexeme := by
      rw [byteLength_append, byteLength_append, hbefore]
    simpa using ih _ hnext span hspan

end Layout

theorem layout_lex (source : String) :
  Layout 0 source.toList (Token.lex source).tokens
  := by
  have hlayout := layout_pieces 0 source.toList
  rw [Nat.zero_add] at hlayout
  rw [Token.lex, Piece.ofSource]
  dsimp only
  rw [List.map_append]
  exact hlayout

/-! ## Errors -/

/-- A piece of a text is an error or a token of another kind. -/
theorem isError_of_ofSource {source : String} :
  ∀ piece ∈ Piece.ofSource source, piece.toToken.kind = .invalid ↔ piece.error?.isSome = true
  := by
  intro piece hpiece
  cases piece with
  | error e => simp [Piece.toToken, Piece.error?]
  | token token =>
    simp only [Piece.toToken, Piece.error?, Option.isSome_none, Bool.false_eq_true, iff_false]
    rcases List.mem_append.mp hpiece with hpiece | hpiece
    · intro hinvalid
      have hscanned := isScanned_of_mem_pieces _ hpiece
      rw [hinvalid] at hscanned
      exact hscanned
    · cases List.mem_singleton.mp hpiece
      simp

theorem ne_invalid_of_error? {token : Token}
    (h : (Piece.token token).toToken.kind = .invalid ↔ (Piece.token token).error?.isSome = true) :
  ¬ token.kind = .invalid
  := fun hinvalid => by simpa [Piece.error?] using h.mp hinvalid

/-- The errors of pieces are those of the invalid tokens among them. -/
theorem map_span_errors {all : List Piece} (h : ∀ piece ∈ all, piece.toToken.kind = .invalid ↔ piece.error?.isSome = true) :
  (all.filterMap Piece.error?).map (·.span)
    = ((all.map Piece.toToken).filter fun token => token.kind = .invalid).map (·.span)
  := by
  induction all with
  | nil => rfl
  | cons piece all ih =>
    rw [List.forall_mem_cons] at h
    cases piece with
    | error e => simpa [Piece.error?, Piece.toToken] using ih h.2
    | token token =>
      have hkind := ne_invalid_of_error? h.1
      rw [List.filterMap_cons_none rfl, List.map_cons, List.filter_cons_of_neg (by simp [Piece.toToken, hkind])]
      exact ih h.2

theorem covers_source (source : String) :
  (Token.lex source).Covers source.toList
  := by
  have hlayout := layout_lex source
  obtain ⟨tokens, htokens, hkinds⟩ := hlayout.exists_stop
  rw [Nat.zero_add] at htokens
  exact {
    stop := ⟨tokens, htokens, hkinds⟩
    nonempty := hlayout.start_lt_stop
    boundaries := hlayout.exists_lexeme [] rfl
    increasing := hlayout.pairwise_stop_le.2
    gaps := hlayout.exists_gap [] rfl
    errors := map_span_errors isError_of_ofSource }

/-! ## One token at a time -/

/-- What scanning for one token finds is the first piece. -/
theorem pieces_eq_firstPiece? (h : taken ≤ text.length) :
  pieces offset taken text = match firstPiece? offset taken text with
    | some (piece, stop, rest) => piece :: pieces stop 0 rest
    | none => []
  := by
  induction text generalizing offset taken with
  | nil =>
    rw [pieces, firstPiece?]
  | cons c text ih =>
    cases taken with
    | succ taken =>
      rw [pieces, firstPiece?]
      exact ih (Nat.le_of_succ_le_succ h)
    | zero =>
      obtain ⟨hpos, hle⟩ := scan_bounds c text
      rw [firstPiece?]
      dsimp only
      cases hpiece : (scan c text).2.piece? ⟨offset, offset + byteLength ((c :: text).take (scan c text).1)⟩ with
      | some piece => rw [pieces_cons, hpiece, Option.toList_some, List.singleton_append]
      | none =>
        rw [pieces]
        dsimp only
        rw [hpiece, Option.toList_none, List.nil_append]
        exact ih (by omega)

namespace Lexer

variable {l : Lexer} {given pending : List Piece}

/-- The answers to calls for the next token, and the lexer behind them. -/
def run (l : Lexer) : Nat → List (Option Token) × Lexer
  | 0 => ([], l)
  | n + 1 => (l.next.1 :: (l.next.2.run n).1, (l.next.2.run n).2)

/-- The lexers that calls for the next token and restarts come to. -/
inductive Reached (source : String) : Lexer → Prop
  | start : Reached source (ofSource source)
  | next {l : Lexer} (h : Reached source l) : Reached source l.next.2
  | restart {l : Lexer} (h : Reached source l) : Reached source l.restart

/-- A lexer gives all tokens and then no more, and it has the errors of the tokens that it has given. -/
def Yields (l : Lexer) (lexed : Lexed) : Prop :=
  ∀ n, (l.run n).1 = (lexed.tokens.take n).map some ++ List.replicate (n - lexed.tokens.length) none
    ∧ (l.run n).2.errors
      = lexed.errors.take ((lexed.tokens.take n).countP fun token => token.kind = .invalid)

/-- A lexer has given some pieces and others are still to come. -/
structure Between (l : Lexer) (given pending : List Piece) : Prop where
  errors : l.errors = given.filterMap Piece.error?
  finished : l.isFinished = true → pending = []
  pending : l.isFinished = false →
    pending = pieces l.offset 0 l.rest ++ [.token ⟨.stop, .point (byteLength l.source.toList)⟩]

theorem between_ofSource (source : String) :
  (ofSource source).Between [] (Piece.ofSource source)
  := ⟨rfl, nofun, fun _ => rfl⟩

theorem Between.next {piece : Piece} (h : l.Between given (piece :: pending)) :
  l.next.1 = some piece.toToken ∧ l.next.2.Between (given ++ [piece]) pending
  := by
  have hfinished : l.isFinished = false := by
    rw [← Bool.not_eq_true]
    exact fun hfinished => by cases h.finished hfinished
  have hpieces := h.pending hfinished
  rw [pieces_eq_firstPiece? (Nat.zero_le _)] at hpieces
  rw [Lexer.next, if_neg (by simp [hfinished])]
  cases hfirst : firstPiece? l.offset 0 l.rest with
  | some found =>
    obtain ⟨first, stop, rest⟩ := found
    rw [hfirst, List.cons_append, List.cons.injEq] at hpieces
    obtain ⟨rfl, rfl⟩ := hpieces
    refine ⟨rfl, ?_, fun hdone => ?_, fun _ => rfl⟩
    · dsimp only
      rw [h.errors, List.filterMap_append, List.filterMap_cons, List.filterMap_nil]
      cases piece.error? <;> rfl
    · rw [hfinished] at hdone
      cases hdone
  | none =>
    rw [hfirst, List.nil_append, List.cons.injEq] at hpieces
    obtain ⟨rfl, rfl⟩ := hpieces
    refine ⟨rfl, ?_, fun _ => rfl, nofun⟩
    rw [List.filterMap_append]
    exact h.errors.trans (List.append_nil _).symm

theorem Between.done (h : l.Between given []) :
  l.next = (none, l)
  := by
  rw [Lexer.next, if_pos]
  rw [← Bool.not_eq_false]
  intro hfinished
  simpa using h.pending hfinished

theorem Between.run (h : l.Between given pending) (n : Nat) :
  (l.run n).1 = ((pending.take n).map Piece.toToken).map some ++ List.replicate (n - pending.length) none
  ∧ (l.run n).2.errors = (given ++ pending.take n).filterMap Piece.error?
  := by
  induction n generalizing l given pending with
  | zero => simpa [Lexer.run] using h.errors
  | succ n ih =>
    cases pending with
    | nil =>
      obtain ⟨htokens, herrors⟩ := ih h
      rw [Lexer.run, h.done]
      dsimp only
      rw [htokens]
      simpa [List.replicate_succ] using herrors
    | cons piece pending =>
      obtain ⟨htoken, hnext⟩ := h.next
      obtain ⟨htokens, herrors⟩ := ih hnext
      rw [Lexer.run, htoken]
      dsimp only
      rw [htokens]
      simpa using herrors

/-- The errors of the first pieces are the first errors. -/
theorem filterMap_error_take {all : List Piece}
    (h : ∀ piece ∈ all, piece.toToken.kind = .invalid ↔ piece.error?.isSome = true) (n : Nat) :
  (all.take n).filterMap Piece.error?
    = (all.filterMap Piece.error?).take
      (((all.map Piece.toToken).take n).countP fun token => token.kind = .invalid)
  := by
  induction n generalizing all with
  | zero => simp
  | succ n ih =>
    cases all with
    | nil => simp
    | cons piece all =>
      rw [List.forall_mem_cons] at h
      rw [List.map_cons, List.take_succ_cons, List.take_succ_cons, List.countP_cons]
      cases piece with
      | error e => simpa [Piece.error?, Piece.toToken] using ih h.2
      | token token =>
        have hkind := ne_invalid_of_error? h.1
        rw [List.filterMap_cons_none rfl, List.filterMap_cons_none rfl, ih h.2]
        simp [Piece.toToken, hkind]

theorem Reached.source_eq {source : String} (h : Reached source l) :
  l.source = source
  := by
  induction h with
  | start => rfl
  | @next l h ih =>
    rw [← ih, Lexer.next]
    split
    · rfl
    · split <;> rfl
  | restart h ih => exact ih

theorem yields_ofSource (source : String) :
  (ofSource source).Yields (Token.lex source)
  := by
  intro n
  obtain ⟨htokens, herrors⟩ := (between_ofSource source).run n
  rw [List.nil_append, filterMap_error_take isError_of_ofSource] at herrors
  refine ⟨?_, herrors⟩
  rw [htokens, Token.lex]
  simp

end Lexer

/--
The tokens of a text cover it but for blanks and comments, and its errors are those of its invalid tokens. A lexer
gives the same tokens and errors, also after it has been restarted.
-/
theorem covers_lex (source : String) :
  (Token.lex source).Covers source.toList ∧ (Lexer.ofSource source).Yields (Token.lex source)
  ∧ ∀ l, Lexer.Reached source l → l.restart.Yields (Token.lex source)
  := by
  refine ⟨covers_source source, Lexer.yields_ofSource source, fun l hl => ?_⟩
  rw [Lexer.restart, hl.source_eq]
  exact Lexer.yields_ofSource source

/-- A lexer that is restarted before a string that is not closed. -/
theorem covers_lex_unclosedString :
  Lexer.Reached "f /* a */ \"b\nc" (Lexer.ofSource "f /* a */ \"b\nc").next.2
  ∧ (Lexer.ofSource "f /* a */ \"b\nc").next.2.restart.Yields (Token.lex "f /* a */ \"b\nc")
  := ⟨.next .start, (covers_lex "f /* a */ \"b\nc").2.2 _ (.next .start)⟩

end FormCompiler
