import FormCompiler.Parsing.Item
import FormCompiler.Proofs.Parsing.Form
import FormCompiler.Proofs.Typing.Module

/-!
# New identifiers in units

All expressions of a parsed unit have different identifiers, below the number of identifiers in use,
whatever the errors in its text (`numbered_parseUnit`).
-/

namespace FormCompiler

variable {given : List Expr}

/-- All expressions in an item, or in the items of a group. -/
def Item.allParts (item : Item) : List Expr := item.flat.flatMap Item.parts

namespace FormParser

variable {r : Remaining}

theorem makes_param {part : Part} (hpart : part.Sound) :
  Makes [] (param part) (fun _ => True) fun _ => []
  := by
  unfold param
  split
  · exact .pure trivial (List.Subperm.refl _)
  · exact (makes_within (keeps_typedName _ _ _ _ hpart.parts)).bind fun _ _ => .pure trivial (List.Subperm.refl _)
  · exact .throw

theorem keeps_mapM {α : Type} {f : Part → Parser α} (hf : ∀ part, part.Sound →
    Makes [] (f part) (fun _ => True) fun _ => []) {parts : List Part} (hparts : ∀ part ∈ parts, part.Sound) :
  Keeps (parts.mapM fun part => (f part : FormParser α))
  := by
  intro r given hr
  have hnil : ∀ made : List α, given ++ made.flatMap (fun _ => []) = given := by
    intro made
    rw [List.flatMap_eq_nil_iff.mpr fun _ _ => rfl, List.append_nil]
  simpa only [hnil] using takes_mapM (fun part hpart => hf part (hparts part hpart)) hr given

theorem keeps_params :
  Keeps params
  := by
  intro r given hr
  refine .get ?_
  split
  · next opening parts closing expr rest heq =>
    have hparts := (hr (.group opening parts closing expr) (by rw [heq]; exact List.mem_cons_self ..)).parts
    refine (keeps_skip.bind fun _ => fun r given hr => .lift (makes_within ?_) hr) r given hr
    refine .get (((keeps_mapM (fun _ => makes_param) hparts).bind fun params => ?_) _ given hparts)
    exact (keeps_takeAll _ (by simp [Remaining.Sound])).bind fun _ => (keeps_close opening).bind fun _ => .pure _
  · exact .unexpected _

theorem takes_constDecl (hr : r.Sound) (opening : Token) :
  Takes r [] (constDecl opening) (fun _ => True) fun decl => decl.init.preorder
  := (keeps_binding r [] hr).bind fun _ _ hr₁ _ => (takes_expr hr₁ []).bind fun _ r₂ hr₂ _ =>
    (keeps_close opening r₂ _ hr₂).bind fun _ _ hr₃ _ => .pure hr₃ trivial (List.Subperm.refl _)

theorem takes_functionDecl (hr : r.Sound) (opening : Token) :
  Takes r [] (functionDecl opening) (fun _ => True) fun decl => preorders decl.body
  := (keeps_name _ r [] hr).bind fun _ r₁ hr₁ _ => (keeps_params r₁ _ hr₁).bind fun _ r₂ hr₂ _ =>
    (keeps_resultType r₂ _ hr₂).bind fun _ _ hr₃ _ => (takes_body hr₃ []).bind fun _ r₄ hr₄ _ =>
    (keeps_close opening r₄ _ hr₄).bind fun _ _ hr₅ _ => .pure hr₅ trivial (List.Subperm.refl _)

theorem keeps_precedence :
  Keeps precedence
  := by
  refine keeps_current.bind fun token => ?_
  split
  · exact .ite (keeps_skip.bind fun _ => .pure _) (.throw _)
  · exact .unexpected _

theorem keeps_associativity :
  Keeps associativity
  := by
  refine keeps_current.bind fun token => (keeps_name _).bind fun text => ?_
  split
  · exact .pure _
  · exact .pure _
  · exact .throw _

theorem keeps_modifyState {change : ParserState → ParserState} (h : ∀ s, (change s).nextId = s.nextId) :
  Keeps (modifyThe ParserState change)
  := by
  intro r given hr low s _ hgiven
  refine ⟨Nat.le_of_eq (h s).symm, ?_⟩
  rintro _ ⟨⟩
  exact ⟨⟨hr, trivial⟩, (h s).symm ▸ hgiven⟩

theorem takes_operatorDecl (hr : r.Sound) (opening : Token) :
  Takes r [] (operatorDecl opening) (fun _ => True) fun decl => preorders decl.body
  := by
  refine (keeps_current r [] hr).bind fun token r₁ hr₁ _ => ?_
  split
  · refine (keeps_skip r₁ [] hr₁).bind fun _ r₂ hr₂ _ => (keeps_precedence r₂ [] hr₂).bind fun _ r₃ hr₃ _ =>
      (keeps_associativity r₃ [] hr₃).bind fun _ r₄ hr₄ _ => (keeps_getState r₄ [] hr₄).bind fun _ r₅ hr₅ _ => ?_
    split
    · exact .throw
    · refine Takes.bind (keeps_modifyState ?_ r₅ [] hr₅) fun _ r₆ hr₆ _ =>
        (keeps_params r₆ [] hr₆).bind fun params r₇ hr₇ _ => ?_
      · exact fun _ => rfl
      split
      · exact .throw
      · exact (keeps_resultType r₇ _ hr₇).bind fun _ _ hr₈ _ => (takes_body hr₈ []).bind fun _ r₉ hr₉ _ =>
          (keeps_close opening r₉ _ hr₉).bind fun _ _ hr _ => .pure hr trivial (List.Subperm.refl _)
  · exact .unexpected _

theorem makes_foreignFunction {part : Part} (hpart : part.Sound) :
  Makes [] (foreignFunction part) (fun _ => True) fun _ => []
  := by
  unfold foreignFunction
  split
  · exact makes_within (((keeps_name _).bind fun _ => keeps_params.bind fun _ => keeps_resultType.bind fun _ =>
      (keeps_close _).bind fun _ => .pure _) _ _ hpart.parts.tail)
  · exact .throw

theorem keeps_foreignDecl (opening : Token) :
  Keeps (foreignDecl opening)
  := by
  refine keeps_current.bind fun token => ?_
  split
  · refine keeps_skip.bind fun _ => fun r given hr => .get ?_
    exact ((keeps_mapM (fun _ => makes_foreignFunction) hr).bind fun _ => (keeps_takeAll _ (by
      simp [Remaining.Sound])).bind fun _ => (keeps_close opening).bind fun _ => .pure _) r given hr
  · exact .unexpected _

end FormParser

/-! ## Items -/

/-- Parsing that goes on after errors keeps the identifiers of what it makes different. -/
def Recovers {α : Type} (given : List Expr) (p : StateM ParserState α) (made : α → List Expr) : Prop :=
  ∀ low s, low ≤ s.nextId → Fresh low s.nextId given →
    s.nextId ≤ (p s).2.nextId ∧ Fresh low (p s).2.nextId (made (p s).1)

theorem Recovers.bind {α β : Type} {p : StateM ParserState α} {made : α → List Expr} {k : α → StateM ParserState β}
    {made' : β → List Expr} (hp : Recovers given p made) (hk : ∀ a, Recovers (made a) (k a) made') :
  Recovers given (p >>= k) made'
  := by
  intro low s hlow hgiven
  obtain ⟨hnext, hmade⟩ := hp low s hlow hgiven
  obtain ⟨hnext', hmade'⟩ := hk (p s).1 low (p s).2 (Nat.le_trans hlow hnext) hmade
  exact ⟨Nat.le_trans hnext hnext', hmade'⟩

theorem Recovers.pure {α : Type} {a : α} {made : α → List Expr} (hmade : (made a).Subperm given) :
  Recovers given (pure a) made
  := fun _ _ _ hgiven => ⟨Nat.le_refl _, hgiven.of_subperm hmade⟩

/-- An item with an error is left out; its identifiers are not used again. -/
theorem recovers_recovering {p : Parser Item} (hp : Makes [] p (fun _ => True) Item.allParts)
    (given : List Expr) :
  Recovers given (recovering p) fun item => given ++ item.toList.flatMap Item.allParts
  := by
  intro low s hlow hgiven
  obtain ⟨hnext, hmade⟩ := hp.frame given low s hlow hgiven
  unfold recovering
  simp only [bind, StateT.bind, ExceptT.run]
  rcases hrun : p s with ⟨e | item, s'⟩
  · rw [hrun] at hnext
    have hfresh : Fresh low s'.nextId (given ++ (none : Option Item).toList.flatMap Item.allParts) := by
      simpa using hgiven.mono hnext
    dsimp only
    split
    · exact ⟨hnext, hfresh⟩
    · exact ⟨hnext, hfresh⟩
  · rw [hrun] at hnext hmade
    have hfresh : Fresh low s'.nextId (given ++ (some item).toList.flatMap Item.allParts) := by
      simpa using (hmade item rfl).2
    exact ⟨hnext, hfresh⟩

theorem makes_lift {α : Type} {p : StateM ParserState α} {made : α → List Expr} (h : Recovers given p made) :
  Makes given (liftM p) (fun _ => True) made
  := by
  intro low s hlow hgiven
  obtain ⟨hnext, hmade⟩ := h low s hlow hgiven
  refine ⟨hnext, ?_⟩
  rintro _ ⟨⟩
  exact ⟨trivial, hmade⟩

theorem flatItems_eq_flatMap (items : List Item) :
  flatItems items = items.flatMap Item.flat
  := by
  induction items with
  | nil => rw [flatItems, List.flatMap_nil]
  | cons item items ih => rw [flatItems, List.flatMap_cons, ih]

/-- Forms outside all expressions, if each of them is parsed on its own. -/
theorem recovers_parseItems {parts : List Part}
    (hparts : ∀ part ∈ parts, Makes [] (parseItem part) (fun _ => True) Item.allParts) (given : List Expr) :
  Recovers given (parseItems parts) fun items => given ++ items.flatMap Item.allParts
  := by
  induction parts generalizing given with
  | nil =>
    rw [parseItems]
    exact .pure (by rw [List.flatMap_nil, List.append_nil])
  | cons part parts ih =>
    rw [List.forall_mem_cons] at hparts
    rw [parseItems]
    refine (recovers_recovering hparts.1 given).bind fun item => (ih hparts.2 _).bind fun items => .pure ?_
    rw [List.flatMap_append, List.append_assoc]

theorem makes_parseItem {part : Part} (h : part.Sound) :
  Makes [] (parseItem part) (fun _ => True) Item.allParts
  := by
  have hexpr : ∀ {p : Parser Expr}, MakesExpr p → Makes [] (do return .expr (← p)) (fun _ => True) Item.allParts := by
    intro p hp
    refine Makes.bind hp fun e _ => .pure trivial (List.Perm.of_eq ?_).subperm
    simp [Item.allParts, Item.flat, Item.parts, Item.roots, preorders]
  induction h with
  | atom h =>
    rw [parseItem]
    split
    · exact .throw
    · exact hexpr h
  | @group opening closing parts expr hparts h ih =>
    have hgroup : Remaining.Sound ⟨parts, closing⟩ := hparts
    unfold parseItem
    split
    · next heq => cases heq
    · next heq =>
      cases heq
      obtain ⟨-, ih⟩ := List.forall_mem_cons.mp ih
      split
      · next rest =>
        obtain ⟨-, ih⟩ := List.forall_mem_cons.mp ih
        refine Makes.bind (makes_lift (recovers_parseItems ih [])) fun items _ => ?_
        have hclose : Remaining.Sound ⟨[], closing⟩ := by simp [Remaining.Sound]
        refine Makes.bind (makes_within (FormParser.keeps_close opening _ _ hclose)) fun _ _ =>
          .pure trivial (List.Perm.of_eq ?_).subperm
        rw [Item.allParts, Item.flat, flatItems_eq_flatMap, List.flatMap_assoc, List.nil_append]
        rfl
      · exact makes_within (.unexpected _)
    · next heq =>
      cases heq
      refine Makes.bind (makes_within (FormParser.takes_constDecl hgroup.tail _)) fun decl _ =>
        .pure trivial (List.Perm.of_eq ?_).subperm
      simp [Item.allParts, Item.flat, Item.parts, Item.roots, preorders]
    · next heq =>
      cases heq
      refine Makes.bind (makes_within (FormParser.takes_functionDecl hgroup.tail _)) fun decl _ =>
        .pure trivial (List.Perm.of_eq ?_).subperm
      simp [Item.allParts, Item.flat, Item.parts, Item.roots]
    · next heq =>
      cases heq
      refine Makes.bind (makes_within (FormParser.takes_operatorDecl hgroup.tail _)) fun decl _ =>
        .pure trivial (List.Perm.of_eq ?_).subperm
      simp [Item.allParts, Item.flat, Item.parts, Item.roots]
    · next heq =>
      cases heq
      refine Makes.bind (makes_within (FormParser.keeps_foreignDecl _ _ _ hgroup.tail)) fun decl _ =>
        .pure trivial (List.Perm.of_eq ?_).subperm
      simp [Item.allParts, Item.flat, Item.parts, Item.roots, preorders]
    · next heq =>
      cases heq
      exact hexpr h

/-! ## Units -/

/-- In a parsed unit no identifier is used twice. -/
theorem numbered_parseUnit (source : String) :
  Numbered (parseUnit source).module.exprCount ((parseUnit source).module.flatItems.flatMap Item.parts)
  := by
  have hrange : ∀ token ∈ (Token.lex source).tokens, ∀ n, token.kind = .int n → isInt64 n = true := by
    intro token htoken n hkind
    have hscanned := isScanned_of_lex htoken
    rw [hkind] at hscanned
    simpa [TokenKind.IsScanned] using hscanned
  have hparts := sound_toParts _ (TokenTree.all_ofTokens hrange)
  have hitems := recovers_parseItems (fun part hpart => makes_parseItem (hparts part hpart)) [] 0 .initial
    (Nat.le_refl _) .nil
  have hstate : ∀ p : StateM ParserState (List Item), p.run .initial = p .initial := fun _ => rfl
  simp only [Module.flatItems, flatItems_eq_flatMap, List.flatMap_assoc, parseUnit, hstate]
  rcases hrun : parseItems (toParts (TokenTree.ofTokens (Token.lex source).tokens)) .initial with ⟨items, state⟩
  rw [hrun] at hitems
  exact hitems.2.toNumbered

/-- The identifiers of all expressions of a parsed unit are different, and below their number. -/
theorem nodup_ids_parseUnit (source : String) :
  (((parseUnit source).module.flatItems.flatMap Item.parts).map Expr.id).Nodup
  ∧ ∀ e ∈ (parseUnit source).module.flatItems.flatMap Item.parts, e.id < (parseUnit source).module.exprCount
  := ⟨(numbered_parseUnit source).nodup, (numbered_parseUnit source).lt⟩

end FormCompiler
