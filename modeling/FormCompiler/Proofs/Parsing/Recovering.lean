import FormCompiler.Proofs.Parsing.Alike

/-!
# Forms that are left out

Where a form begins and ends does not depend on whether it can be parsed. If it can, its parser has taken all of its
tokens; if not, parsing goes on behind it all the same. So an erroneous form can be left out of the text: all other
forms become the same items, up to identifiers and hidden names, unless they have a symbol that the erroneous form
declares as an operator (`areIndependent`).
-/

namespace FormCompiler

variable {α β γ δ : Type}
variable {trees : List TokenTree} {tree : TokenTree}

/-! ## Declared operators -/

/-- The symbol that an operator group declares, whether or not the rest of the group is right. -/
def declaredSymbol : List Part → List String
  | [] => []
  | part :: _ =>
    match part.lead.kind with
    | .symbol symbol => [symbol]
    | _ => []

mutual

/-- The symbols that a form may declare as operators; a module group declares those of the forms in it. -/
def Part.declared : Part → List String
  | .group _ (.atom ⟨.ident "operator", _⟩ _ :: parts) _ _ => declaredSymbol parts
  | .group _ (.atom ⟨.ident "module", _⟩ _ :: .atom ⟨.ident _, _⟩ _ :: parts) _ _ => declaredIn parts
  | _ => []

/-- The symbols that several forms may declare as operators. -/
def declaredIn : List Part → List String
  | [] => []
  | part :: parts => part.declared ++ declaredIn parts

end

namespace OperatorTable

variable {symbols : List String} {t t' u : OperatorTable} {symbol : String}

theorem extends_register? {precedence : Nat} {assoc : Assoc} (h : t.register? symbol precedence assoc = some u) :
  t.Extends [symbol] u
  := by
  unfold register? at h
  split at h
  · cases h
  · cases h
    exact ⟨[_], rfl, by simp⟩

/-- Tables that agree about a symbol agree on whether it can be declared. -/
theorem isSome_register? (h : t.lookup symbol = t'.lookup symbol) (precedence : Nat) (assoc : Assoc) :
  (t.register? symbol precedence assoc).isSome = (t'.register? symbol precedence assoc).isSome
  := by
  unfold register?
  rw [h]
  split <;> rfl

/-- Tables that agree on some symbols still do so after the same declaration in both. -/
theorem Agrees.getD_register? (h : t.Agrees symbols t') (symbol : String) (precedence : Nat) (assoc : Assoc) :
  ((t.register? symbol precedence assoc).getD t).Agrees symbols ((t'.register? symbol precedence assoc).getD t')
  := by
  have hown : ∀ t : OperatorTable, ((t.register? symbol precedence assoc).getD t).Agrees [symbol] t := by
    intro t
    cases hregister : t.register? symbol precedence assoc with
    | none => exact fun _ _ => rfl
    | some u => exact (extends_register? hregister).agrees
  intro other hother
  by_cases hsame : other = symbol
  · subst hsame
    have hlookup := h other hother
    unfold register?
    rw [← hlookup]
    split
    · exact hlookup
    · simp only [Option.getD_some, lookup, List.lookup_cons_self]
  · have hdistinct : other ∉ [symbol] := by simpa using hsame
    rw [hown t other hdistinct, hown t' other hdistinct, h other hother]

end OperatorTable

namespace RunsAlike

variable {d : Shift} {declared : List String} {R : α → β → Prop} {s s' : ParserState} {t : OperatorTable}
  {run : Except ParseError α × ParserState} {run' : Except ParseError β × ParserState}

/-- Parsers that go on with other operators. -/
theorem declaring (t' : OperatorTable)
    (h : RunsAlike d declared R { s with operators := t } { s' with operators := t' } run run')
    (ht : s.operators.Extends declared t) :
  RunsAlike d declared R s s' run run'
  := ⟨h.like, ht.trans h.operators, h.errors, h.results⟩

end RunsAlike

/-- Parsers that look at the state and go on by it. -/
theorem Tracks.getState {d : Shift} {declared : List String} {P Q : Remaining → Prop} {R : α → β → Prop}
    {k : ParserState → FormParser α} {k' : ParserState → FormParser β}
    (h : ∀ s s', s.Like d s' → ∀ r, P r →
      RunsAlike d declared (fun x y => x.2 = y.2 ∧ Q x.2 ∧ R x.1 y.1) s s' (k s r s) (k' s' r s')) :
  Tracks d declared P Q (getThe ParserState >>= k) (getThe ParserState >>= k') R
  := fun r hr s s' hs => h s s' hs r hr

/-! ## Declarations -/

namespace FormParser

section

variable {d : Shift} {declared : List String} {opening closing : Token}

theorem alike_param {part : Part} (h : part.Steady d) :
  Alike d declared (param part) (param part) Eq
  := by
  unfold param
  split
  · exact .pure rfl
  · next opening parts closing expr =>
    have hgroup : Alike d declared _ _ Eq :=
      alike_within (Q := Remaining.Ended opening closing) h.parts (tracks_typedName "parameter name")
    exact hgroup.bind fun _ _ hab => hab ▸ .pure rfl
  · exact .throw

theorem tracks_params :
  Tracks d declared (Remaining.Steady d closing) (Remaining.Steady d closing) params params Eq
  := by
  refine .get fun r hr => ?_
  split
  · next opening parts closing expr rest hparts =>
    have hgroup := (hr.parts (.group opening parts closing expr) (hparts ▸ List.mem_cons_self ..)).parts
    refine tracks_skip.bindEq fun _ => .lift (alike_within (Q := Remaining.Ended opening closing) hgroup ?_)
    refine .get fun r hr => ?_
    refine (Tracks.mapM fun part hpart => alike_param (hr.parts part hpart)).bind fun params params' hparams => ?_
    obtain rfl : params = params' := List.forall₂_eq_eq_eq ▸ hparams
    exact (Tracks.set hr.done).bindEq fun _ => tracks_close.bindEq fun _ => .pure rfl
  · exact tracks_unexpected _

theorem tracks_constDecl :
  TracksGroup d declared opening closing (constDecl opening) (constDecl opening) fun c c' =>
    Item.Like d (.const c) (.const c')
  := tracks_binding.bindEq fun _ => tracks_expr.bind fun _ _ hinit => tracks_close.bindEq fun _ => .pure (.const hinit)

theorem tracks_functionDecl :
  TracksGroup d declared opening closing (functionDecl opening) (functionDecl opening) fun f f' =>
    Item.Like d (.function f) (.function f')
  := (tracks_name _).bindEq fun _ => tracks_params.bindEq fun _ => tracks_resultType.bindEq fun _ =>
    tracks_body.bind fun _ _ hbody => tracks_close.bindEq fun _ => .pure (.function hbody)

theorem tracks_precedence :
  Tracks d declared (Remaining.Steady d closing) (Remaining.Steady d closing) precedence precedence Eq
  := by
  refine tracks_current.bindEq fun token => ?_
  split
  · exact .ite (tracks_skip.bindEq fun _ => .pure rfl) .throw
  · exact tracks_unexpected _

theorem tracks_associativity :
  Tracks d declared (Remaining.Steady d closing) (Remaining.Steady d closing) associativity associativity Eq
  := by
  refine tracks_current.bindEq fun token => (tracks_name _).bindEq fun text => ?_
  split
  · exact .pure rfl
  · exact .pure rfl
  · exact .throw

/-- What comes behind the associativity of a declared operator, when all forms know the operator. -/
def operatorRest (opening token : Token) (symbol : String) (precedence : Nat) (assoc : Assoc) :
    FormParser OperatorDecl := do
  let params ← params
  if params.length ≠ 2 then throw (.operator token.span .parameterCount)
  let result ← resultType
  let body ← body
  let stop ← close opening
  return { symbol, precedence, assoc, params, result, body, span := opening.span.merge stop }

theorem tracks_operatorRest (token : Token) (symbol : String) (precedence : Nat) (assoc : Assoc) :
  TracksGroup d declared opening closing (operatorRest opening token symbol precedence assoc)
    (operatorRest opening token symbol precedence assoc) fun o o' => Item.Like d (.operator o) (.operator o')
  := tracks_params.bindEq fun _ => .ite .throw (tracks_resultType.bindEq fun _ => tracks_body.bind fun _ _ hbody =>
    tracks_close.bindEq fun _ => .pure (.operator hbody))

/-- The symbol of an operator group is known to be declared. -/
structure Declaring (d : Shift) (declared : List String) (closing : Token) (r : Remaining) : Prop where
  steady : r.Steady d closing
  subset : declaredSymbol r.parts ⊆ declared

theorem tracks_operatorSymbol :
  Tracks d declared (Declaring d declared closing) (Remaining.Steady d closing) current current fun token token' =>
    token = token' ∧ ∀ symbol, token.kind = .symbol symbol → symbol ∈ declared ∧ symbol ∉ d.symbols
  := by
  rintro ⟨parts, closing'⟩ ⟨hr, hsubset⟩
  obtain rfl : closing' = closing := hr.closing
  cases parts with
  | nil =>
    refine .pure ⟨rfl, hr, rfl, fun symbol hkind => absurd hkind ?_⟩
    exact hr.ends.avoids [symbol] symbol (List.mem_singleton_self symbol)
  | cons part parts =>
    refine .pure ⟨rfl, hr, rfl, fun symbol hkind => ⟨hsubset ?_, fun hsymbol => ?_⟩⟩
    · simp [declaredSymbol, show part.lead.kind = .symbol symbol from hkind]
    · exact (hr.parts part (List.mem_cons_self ..)).lead.2 symbol hsymbol hkind

theorem tracks_operatorDecl :
  Tracks d declared (Declaring d declared closing) (Remaining.Ended opening closing) (operatorDecl opening)
    (operatorDecl opening) fun o o' => Item.Like d (.operator o) (.operator o')
  := by
  refine tracks_operatorSymbol.bind ?_
  rintro token _ ⟨rfl, hsymbol⟩
  split
  · next symbol hkind =>
    obtain ⟨hdeclared, hagrees⟩ := hsymbol symbol hkind
    refine tracks_skip.bindEq fun _ => tracks_precedence.bindEq fun precedence =>
      tracks_associativity.bindEq fun assoc => .getState fun s s' hs r hr => ?_
    have hsome := OperatorTable.isSome_register? (hs.operators symbol hagrees) precedence assoc
    have htables := hs.operators.getD_register? symbol precedence assoc
    cases hregister : s.operators.register? symbol precedence assoc with
    | none =>
      cases hregister' : s'.operators.register? symbol precedence assoc with
      | none => exact Alike.throw s s' hs
      | some t' => simp [hregister, hregister'] at hsome
    | some t =>
      cases hregister' : s'.operators.register? symbol precedence assoc with
      | none => simp [hregister, hregister'] at hsome
      | some t' =>
        rw [hregister, hregister'] at htables
        refine RunsAlike.declaring t' ?_ ((OperatorTable.extends_register? hregister).mono (by simpa using hdeclared))
        exact tracks_operatorRest token symbol precedence assoc r hr { s with operators := t }
          { s' with operators := t' } ⟨hs.nextId, hs.hiddenNames, htables⟩
  · exact tracks_unexpected _

theorem alike_foreignFunction {part : Part} (h : part.Steady d) :
  Alike d declared (foreignFunction part) (foreignFunction part) Eq
  := by
  unfold foreignFunction
  split
  · next opening span expr parts closing expr' =>
    refine alike_within (Q := Remaining.Ended opening closing) h.parts.tail ?_
    exact (tracks_name _).bindEq fun _ => tracks_params.bindEq fun _ => tracks_resultType.bindEq fun _ =>
      tracks_close.bindEq fun _ => .pure rfl
  · exact .throw

theorem tracks_foreignDecl :
  TracksGroup d declared opening closing (foreignDecl opening) (foreignDecl opening) Eq
  := by
  refine tracks_current.bindEq fun token => ?_
  split
  · refine tracks_skip.bindEq fun _ => .get fun r hr => ?_
    refine (Tracks.mapM fun part hpart => alike_foreignFunction (hr.parts part hpart)).bind fun functions _ h => ?_
    obtain rfl := List.forall₂_eq_eq_eq ▸ h
    exact (Tracks.set hr.done).bindEq fun _ => tracks_close.bindEq fun _ => .pure rfl
  · exact tracks_unexpected _

end

end FormParser

/-! ## Items -/

/-- What an erroneous form leaves is an error, unless the lexer has reported it. -/
theorem recovering_apply (p : Parser Item) (s : ParserState) :
  recovering p s = match p s with
    | (.ok item, s') => (some item, s')
    | (.error e, s') => (none, if e.isLexical then s' else { s' with errors := s'.errors ++ [e] })
  := by
  unfold recovering
  simp only [Bind.bind, StateT.bind, ExceptT.run]
  generalize p s = run
  obtain ⟨e | item, s'⟩ := run
  · dsimp only
    cases e.isLexical <;> rfl
  · rfl

theorem operators_recovering (p : Parser Item) (s : ParserState) :
  (recovering p s).2.operators = (p s).2.operators
  := by
  rw [recovering_apply]
  rcases p s with ⟨e | item, s'⟩
  · dsimp only
    cases e.isLexical <;> rfl
  · rfl

/-- The forms of a list, one after the other. -/
theorem parseItems_cons (part : Part) (parts : List Part) (s : ParserState) :
  parseItems (part :: parts) s
    = (((recovering (parseItem part) s).1.toList ++ (parseItems parts (recovering (parseItem part) s).2).1),
      (parseItems parts (recovering (parseItem part) s).2).2)
  := by
  rw [parseItems]
  rfl

section

variable {d : Shift} {declared : List String}

theorem alike_recovering {p p' : Parser Item} (h : Alike d declared p p' (Item.Like d)) :
  Alike d declared (liftM (recovering p) : Parser (Option Item)) (liftM (recovering p') : Parser (Option Item))
    (Option.Rel (Item.Like d))
  := by
  intro s s' hs
  have hrun := h s s' hs
  change RunsAlike d declared _ s s' (.ok (recovering p s).1, (recovering p s).2)
    (.ok (recovering p' s').1, (recovering p' s').2)
  rw [recovering_apply, recovering_apply]
  generalize p s = run at hrun ⊢
  generalize p' s' = run' at hrun ⊢
  obtain ⟨e | a, t⟩ := run <;> obtain ⟨e' | b, t'⟩ := run'
  · obtain rfl : e = e' := hrun.results
    obtain ⟨new, hnew, hnew'⟩ := hrun.errors
    dsimp only at hnew hnew' ⊢
    cases e.isLexical with
    | true => exact ⟨hrun.like, hrun.operators, hrun.errors, .none⟩
    | false =>
      have hlike := hrun.like
      refine ⟨⟨hlike.nextId, hlike.hiddenNames, hlike.operators⟩, hrun.operators, ⟨new ++ [e], ?_, ?_⟩, .none⟩
      · change t.errors ++ [e] = _
        rw [hnew, List.append_assoc]
      · change t'.errors ++ [e] = _
        rw [hnew', List.append_assoc]
  · exact hrun.results.elim
  · exact hrun.results.elim
  · exact ⟨hrun.like, hrun.operators, hrun.errors, .some hrun.results⟩

theorem alike_parseItems {parts : List Part}
    (h : ∀ part ∈ parts, Alike d part.declared (parseItem part) (parseItem part) (Item.Like d)) :
  Alike d (declaredIn parts) (liftM (parseItems parts) : Parser (List Item))
    (liftM (parseItems parts) : Parser (List Item)) (List.Forall₂ (Item.Like d))
  := by
  induction parts with
  | nil =>
    rw [parseItems]
    exact Alike.pure .nil
  | cons part parts ih =>
    rw [List.forall_mem_cons] at h
    rw [parseItems, declaredIn]
    have hfirst := (alike_recovering h.1).of_subset (List.subset_append_left part.declared (declaredIn parts))
    have hrest := (ih h.2).of_subset (List.subset_append_right part.declared (declaredIn parts))
    rw [liftM_bind]
    refine Alike.bind hfirst fun item item' hitem => ?_
    rw [liftM_bind, liftM_bind]
    refine Alike.bind hrest fun items items' hitems => Alike.pure ?_
    cases hitem with
    | none => exact hitems
    | some hitem => exact .cons hitem hitems

end

/-- The item of a group, as a parser that works through the whole group. -/
def FormParser.item (opening : Token) : FormParser Item := do
  match (← get).parts with
  | .atom ⟨.ident "module", _⟩ _ :: .atom ⟨.ident name, _⟩ _ :: parts =>
    let items ← (parseItems parts : Parser (List Item))
    set { ← get with parts := [] }
    let stop ← close opening
    return .group name items (opening.span.merge stop)
  | .atom ⟨.ident "module", _⟩ _ :: _ => do
    skip
    unexpected "module name"
  | .atom ⟨.ident "const", _⟩ _ :: _ => do
    skip
    return .const (← constDecl opening)
  | .atom ⟨.ident "func", _⟩ _ :: _ => do
    skip
    return .function (← functionDecl opening)
  | .atom ⟨.ident "operator", _⟩ _ :: _ => do
    skip
    return .operator (← operatorDecl opening)
  | .atom ⟨.ident "extern", _⟩ _ :: _ => do
    skip
    return .foreign (← foreignDecl opening)
  | _ => return .expr (← if opening.kind = .openParen then parenForm opening else headForm opening)

theorem FormParser.within_map {parts : List Part} {closing : Token} (f : α → β) (p : FormParser α) :
  within parts closing (do return f (← p)) = do return f (← within parts closing p)
  := by
  simp [within]

theorem parseItem_group (opening closing : Token) (trees : List TokenTree) :
  parseItem (TokenTree.group opening trees closing).toPart
    = FormParser.within (toParts trees) closing (FormParser.item opening)
  := by
  rw [TokenTree.toPart, parseGroup]
  generalize toParts trees = parts
  unfold parseItem
  split
  · next heq => cases heq
  · next heq =>
    cases heq
    split
    · simp [FormParser.within, FormParser.item]
    · simp only [FormParser.within, FormParser.item, StateT.run_bind, StateT.run_get, pure_bind]
      rfl
  · next heq =>
    cases heq
    exact (FormParser.within_map _ _).symm
  · next heq =>
    cases heq
    exact (FormParser.within_map _ _).symm
  · next heq =>
    cases heq
    exact (FormParser.within_map _ _).symm
  · next heq =>
    cases heq
    exact (FormParser.within_map _ _).symm
  · next hmodule _ _ _ _ heq =>
    cases heq
    have hnamed : ∀ span expr name span' expr' rest, parts = .atom ⟨.ident "module", span⟩ expr
        :: .atom ⟨.ident name, span'⟩ expr' :: rest → False :=
      fun span expr _ _ _ _ h => hmodule span expr _ h
    simp only [FormParser.within, FormParser.item, StateT.run_bind, StateT.run_get, pure_bind]
    split <;> exact (FormParser.within_map _ _).symm

section

variable {d : Shift} {closing : Token}

/-- The item of a group, if the forms in a module group are parsed alike. -/
theorem alike_item {parts : List Part} (opening : Token) (expr : Parser Expr)
    (hr : Remaining.Steady d closing ⟨parts, closing⟩)
    (hparts : ∀ part ∈ parts, Alike d part.declared (parseItem part) (parseItem part) (Item.Like d)) :
  Alike d (Part.group opening parts closing expr).declared (FormParser.item opening ⟨parts, closing⟩)
    (FormParser.item opening ⟨parts, closing⟩)
    fun x y => x.2 = y.2 ∧ x.2.Ended opening closing ∧ Item.Like d x.1 y.1
  := by
  refine Tracks.get (P := fun r => r = ⟨parts, closing⟩) (fun r hparts => ?_) _ rfl
  subst hparts
  dsimp only
  split
  · next span expr name span' expr' rest =>
    rw [List.forall_mem_cons, List.forall_mem_cons] at hparts
    rintro _ rfl
    rw [Part.declared]
    refine Tracks.bind (Tracks.lift (alike_parseItems hparts.2.2)) (fun items items' hitems => ?_) _ hr
    exact .get fun r hr => (Tracks.set hr.done).bindEq fun _ => FormParser.tracks_close.bindEq fun _ =>
      .pure (.group hitems)
  · rintro _ rfl
    exact Tracks.bindEq FormParser.tracks_skip (fun _ => FormParser.tracks_unexpected _) _ hr
  · rintro _ rfl
    exact Tracks.bindEq FormParser.tracks_skip (fun _ => FormParser.tracks_constDecl.bind fun _ _ h => .pure h) _ hr
  · rintro _ rfl
    exact Tracks.bindEq FormParser.tracks_skip (fun _ => FormParser.tracks_functionDecl.bind fun _ _ h => .pure h) _ hr
  · next span expr rest =>
    rintro _ rfl
    refine FormParser.tracks_operatorDecl.bind (fun _ _ h => .pure h) ⟨rest, closing⟩ ⟨hr.tail, ?_⟩
    simp [Part.declared]
  · rintro _ rfl
    exact Tracks.bindEq FormParser.tracks_skip
      (fun _ => FormParser.tracks_foreignDecl.bindEq fun _ => .pure .foreign) _ hr
  · rintro _ rfl
    by_cases hparen : opening.kind = .openParen
    · rw [if_pos hparen]
      exact Tracks.bind (FormParser.tracks_parenForm hparen) (fun _ _ h => .pure (.expr h)) _ hr
    · rw [if_neg hparen]
      exact Tracks.bind FormParser.tracks_headForm (fun _ _ h => .pure (.expr h)) _ hr

mutual

/-- Forms in a group are parsed alike if their parts are. -/
theorem alike_parseItem : ∀ {tree : TokenTree}, tree.toPart.Steady d →
    Alike d tree.toPart.declared (parseItem tree.toPart) (parseItem tree.toPart) (Item.Like d)
  | .atom token, h => by
    rw [TokenTree.toPart] at h ⊢
    cases h with
    | atom htoken _ h =>
      rw [parseItem, if_neg (by simp [htoken])]
      exact h.of_nil.bind fun _ _ he => .pure (.expr he)
  | .group opening trees closing, h => by
    rw [parseItem_group]
    rw [TokenTree.toPart] at h ⊢
    cases h with
    | group _ hparts hclosing _ =>
      refine alike_within (P := (· = ⟨toParts trees, closing⟩)) (Q := Remaining.Ended opening closing) rfl ?_
      rintro _ rfl
      exact alike_item opening _ ⟨hparts, hclosing, rfl⟩ (alike_parseItem_of_mem trees hparts)

theorem alike_parseItem_of_mem : ∀ trees : List TokenTree, (∀ part ∈ toParts trees, part.Steady d) →
    ∀ part ∈ toParts trees, Alike d part.declared (parseItem part) (parseItem part) (Item.Like d)
  | [], _ => List.forall_mem_nil _
  | tree :: trees, h => by
    rw [toParts, List.forall_mem_cons] at h ⊢
    exact ⟨alike_parseItem h.1, alike_parseItem_of_mem trees h.2⟩

end

end

/-! ## What a form declares -/

/-- What a parser declares does not depend on the operators: tables that agree about some symbols still do behind it. -/
def Confined (symbols : List String) (p : Parser α) : Prop :=
  ∀ s s', s.operators.Agrees symbols s'.operators → (p s).2.operators.Agrees symbols (p s').2.operators

section

variable {symbols : List String} {closing : Token} {P : Remaining → Prop}

namespace Confined

variable {p : Parser α}

theorem of_operators_eq (h : ∀ s, (p s).2.operators = s.operators) :
  Confined symbols p
  := fun s s' hs => by rwa [h s, h s']

theorem bind {k : α → Parser β} (hp : Confined symbols p) (hk : ∀ a s, (k a s).2.operators = s.operators) :
  Confined symbols (p >>= k)
  := by
  intro s s' hs
  have hoperators : ∀ s, ((p >>= k) s).2.operators = (p s).2.operators := by
    intro s
    rw [Ensures.bind_apply]
    generalize p s = run
    obtain ⟨e | a, t⟩ := run
    · rfl
    · exact hk a t
  rw [hoperators s, hoperators s']
  exact hp s s' hs

theorem within {p : FormParser α} {parts : List Part} (h : Confined symbols (p ⟨parts, closing⟩)) :
  Confined symbols (FormParser.within parts closing p)
  := h.bind fun _ _ => rfl

theorem recovering {p : Parser Item} (h : Confined symbols p) :
  ∀ s s', s.operators.Agrees symbols s'.operators →
    (recovering p s).2.operators.Agrees symbols (recovering p s').2.operators
  := fun s s' hs => by
    rw [operators_recovering, operators_recovering]
    exact h s s' hs

theorem parseItems {parts : List Part} (h : ∀ part ∈ parts, Confined symbols (parseItem part)) :
  ∀ s s', s.operators.Agrees symbols s'.operators →
    (parseItems parts s).2.operators.Agrees symbols (parseItems parts s').2.operators
  := by
  induction parts with
  | nil =>
    rw [FormCompiler.parseItems]
    exact fun _ _ hs => hs
  | cons part parts ih =>
    rw [List.forall_mem_cons] at h
    intro s s' hs
    rw [parseItems_cons, parseItems_cons]
    exact ih h.2 _ _ (h.1.recovering s s' hs)

end Confined

/-- A parser that does the same in every state, and leaves the state as it is. -/
def StateFree (p : FormParser α) : Prop := ∀ r s s', p r s = ((p r s').1, s)

theorem StateFree.bind {p : FormParser α} {k : α → FormParser β} (hp : StateFree p) (hk : ∀ a, StateFree (k a)) :
  StateFree (p >>= k)
  := by
  intro r s s'
  rw [FormParser.bind_apply, FormParser.bind_apply, hp r s s', hp r s' s']
  generalize (p r s').1 = result
  cases result with
  | error e => rfl
  | ok x => exact hk x.1 x.2 s s'

/-- What a parser of a group declares does not depend on the operators. -/
def ConfinedFrom (symbols : List String) (P : Remaining → Prop) (p : FormParser α) : Prop :=
  ∀ r, P r → Confined symbols (p r)

namespace ConfinedFrom

variable {Q : Remaining → Prop}

/-- Parsers that go on alike in every state. -/
theorem bind {p : FormParser α} {k : α → FormParser β} (hp : StateFree p) (htracks : Tracks .none [] P Q p p Eq)
    (hk : ∀ a, ConfinedFrom symbols Q (k a)) :
  ConfinedFrom symbols P (p >>= k)
  := by
  intro r hr s s' hs
  have hresult := (htracks r hr s s (.refl s)).results
  rw [FormParser.bind_apply, FormParser.bind_apply, hp r s' s, hp r s s]
  generalize (p r s).1 = result at hresult ⊢
  cases result with
  | error e => exact hs
  | ok x => exact hk x.1 x.2 hresult.2.1 s s' hs

theorem getState {k : ParserState → FormParser α}
    (h : ∀ s s', s.operators.Agrees symbols s'.operators → ∀ r, P r →
      (k s r s).2.operators.Agrees symbols (k s' r s').2.operators) :
  ConfinedFrom symbols P (getThe ParserState >>= k)
  := fun r hr s s' hs => h s s' hs r hr

theorem of_tracks {p : FormParser α} {R : α → α → Prop} (h : Tracks .none [] P Q p p R) :
  ConfinedFrom symbols P p
  := fun r hr => .of_operators_eq (h r hr).operators_eq

end ConfinedFrom

namespace FormParser

theorem stateFree_current :
  StateFree current
  := fun _ _ _ => rfl

theorem stateFree_skip :
  StateFree skip
  := fun _ _ _ => rfl

theorem stateFree_pure (a : α) :
  StateFree (pure a)
  := fun _ _ _ => rfl

theorem stateFree_throw (e : ParseError) :
  StateFree (α := α) (throw e)
  := fun _ _ _ => rfl

theorem stateFree_unexpected (expected : String) :
  StateFree (α := α) (unexpected expected)
  := stateFree_current.bind fun _ => stateFree_throw _

theorem stateFree_name (expected : String) :
  StateFree (name expected)
  := by
  refine stateFree_current.bind fun token => ?_
  split
  · exact stateFree_skip.bind fun _ => stateFree_pure _
  · exact stateFree_unexpected _

theorem stateFree_precedence :
  StateFree precedence
  := by
  refine stateFree_current.bind fun token => ?_
  split
  · split
    · exact stateFree_skip.bind fun _ => stateFree_pure _
    · exact stateFree_throw _
  · exact stateFree_unexpected _

theorem stateFree_associativity :
  StateFree associativity
  := by
  refine stateFree_current.bind fun token => (stateFree_name _).bind fun side => ?_
  split
  · exact stateFree_pure _
  · exact stateFree_pure _
  · exact stateFree_throw _

theorem confined_operatorDecl (opening : Token) :
  ConfinedFrom symbols (Remaining.Steady .none closing) (operatorDecl opening)
  := by
  refine .bind stateFree_current tracks_current fun token => ?_
  split
  · next symbol hkind =>
    refine .bind stateFree_skip tracks_skip fun _ => .bind stateFree_precedence tracks_precedence fun precedence =>
      .bind stateFree_associativity tracks_associativity fun assoc => .getState fun s s' hs r hr => ?_
    have hrest : ∀ (s : ParserState) t,
        (operatorRest opening token symbol precedence assoc r { s with operators := t }).2.operators = t :=
      fun s t => (tracks_operatorRest token symbol precedence assoc r hr).operators_eq { s with operators := t }
    have htables := hs.getD_register? symbol precedence assoc
    cases hregister : s.operators.register? symbol precedence assoc with
    | none =>
      rw [hregister] at htables
      cases hregister' : s'.operators.register? symbol precedence assoc with
      | none =>
        rw [hregister'] at htables
        exact htables
      | some t' =>
        rw [hregister', ← hrest s' t'] at htables
        exact htables
    | some t =>
      rw [hregister, ← hrest s t] at htables
      cases hregister' : s'.operators.register? symbol precedence assoc with
      | none =>
        rw [hregister'] at htables
        exact htables
      | some t' =>
        rw [hregister', ← hrest s' t'] at htables
        exact htables
  · exact .of_tracks (Q := fun _ => True) (R := Eq) (tracks_unexpected _)

end FormParser

theorem confined_group {opening : Token} {parts : List Part} {expr : Parser Expr} {R : Item → Item → Prop}
    (hr : Remaining.Steady .none closing ⟨parts, closing⟩)
    (halike : Alike .none (Part.group opening parts closing expr).declared
      (parseItem (.group opening parts closing expr)) (parseItem (.group opening parts closing expr)) R)
    (hparts : ∀ part ∈ parts, Confined symbols (parseItem part)) :
  Confined symbols (parseItem (.group opening parts closing expr))
  := by
  unfold Part.declared at halike
  split at halike
  · next heq =>
    cases heq
    rw [parseItem]
    exact (Confined.within (FormParser.confined_operatorDecl opening _ hr.tail)).bind fun _ _ => rfl
  · next rest _ _ heq =>
    cases heq
    rw [List.forall_mem_cons, List.forall_mem_cons] at hparts
    rw [parseItem]
    have hclose : Alike .none [] (FormParser.within [] closing (FormParser.close opening)) _ Eq :=
      alike_within hr.done FormParser.tracks_close
    have hitems : Confined symbols (liftM (parseItems rest) : Parser (List Item)) := Confined.parseItems hparts.2.2
    exact hitems.bind fun items s => Alike.operators_eq (R := fun _ _ => True)
      (hclose.bind fun _ _ _ => .pure (b := ()) trivial) s
  · exact .of_operators_eq halike.operators_eq

mutual

theorem confined_parseItem : ∀ {tree : TokenTree}, tree.toPart.Steady .none →
    Confined symbols (parseItem tree.toPart)
  | .atom token, h => by
    have halike := alike_parseItem h
    rw [TokenTree.toPart] at halike ⊢
    exact .of_operators_eq halike.operators_eq
  | .group opening trees closing, h => by
    have halike := alike_parseItem h
    rw [TokenTree.toPart] at h halike ⊢
    exact confined_group h.parts halike (confined_parseItem_of_mem trees h.parts.parts)

theorem confined_parseItem_of_mem : ∀ trees : List TokenTree, (∀ part ∈ toParts trees, part.Steady .none) →
    ∀ part ∈ toParts trees, Confined symbols (parseItem part)
  | [], _ => List.forall_mem_nil _
  | tree :: trees, h => by
    rw [toParts, List.forall_mem_cons] at h ⊢
    exact ⟨confined_parseItem h.1, confined_parseItem_of_mem trees h.2⟩

end

end

/-! ## Forms outside of all groups -/

end FormCompiler
