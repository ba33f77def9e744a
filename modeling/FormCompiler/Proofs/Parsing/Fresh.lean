import FormCompiler.Parsing.Basic
import FormCompiler.Proofs.Action.Ensures
import FormCompiler.Proofs.Typing.Coerce
import Mathlib.Data.List.Perm.Subperm

/-!
# New identifiers

A parser gives every expression that it makes a new identifier. `Makes given p made` says that if the
identifiers of the given expressions are all different, so are those of what is made of them, also if the
parser fails later: identifiers are never given back. `Takes` says the same of a parser that works through
the parts of a group.
-/

namespace FormCompiler

/-- Expressions with different identifiers, none below a bound. -/
structure Fresh (low high : Nat) (parts : List Expr) : Prop extends Numbered high parts where
  low_le : ∀ e ∈ parts, low ≤ e.id

namespace Fresh

variable {low middle high : Nat} {parts parts' first second : List Expr}

theorem nil :
  Fresh low high []
  := ⟨⟨.nil, by simp, by simp⟩, by simp⟩

theorem of_subperm (h : Fresh low high parts) (hsub : parts'.Subperm parts) :
  Fresh low high parts'
  := by
  obtain ⟨chosen, hperm, hsublist⟩ := hsub
  refine ⟨⟨?_, fun e he => h.lt e (hsublist.subset (hperm.mem_iff.mpr he)),
    fun e he => h.shapes e (hsublist.subset (hperm.mem_iff.mpr he))⟩,
    fun e he => h.low_le e (hsublist.subset (hperm.mem_iff.mpr he))⟩
  exact (hperm.map Expr.id).nodup_iff.mp ((hsublist.map Expr.id).nodup h.nodup)

theorem mono (h : Fresh low middle parts) (hhigh : middle ≤ high) :
  Fresh low high parts
  := ⟨⟨h.nodup, fun e he => Nat.lt_of_lt_of_le (h.lt e he) hhigh, h.shapes⟩, h.low_le⟩

/-- Expressions that are older than others share no identifier with them. -/
theorem append (h : Fresh low middle first) (h' : Fresh middle high second) (hlow : low ≤ middle)
    (hhigh : middle ≤ high) :
  Fresh low high (first ++ second)
  := by
  refine ⟨⟨?_, ?_, List.forall_mem_append.mpr ⟨h.shapes, h'.shapes⟩⟩, ?_⟩
  · rw [List.map_append]
    refine List.nodup_append.mpr ⟨h.nodup, h'.nodup, ?_⟩
    intro id hid id' hid'
    obtain ⟨e, he, rfl⟩ := List.mem_map.mp hid
    obtain ⟨e', he', rfl⟩ := List.mem_map.mp hid'
    exact Nat.ne_of_lt (Nat.lt_of_lt_of_le (h.lt e he) (h'.low_le e' he'))
  · exact List.forall_mem_append.mpr ⟨fun e he => Nat.lt_of_lt_of_le (h.lt e he) hhigh, h'.lt⟩
  · exact List.forall_mem_append.mpr ⟨h.low_le, fun e he => Nat.le_trans hlow (h'.low_le e he)⟩

/-- An expression with the next identifier. -/
theorem cons {e : Expr} (h : Fresh low high parts) (hid : e.id = high) (hlow : low ≤ high)
    (hshape : e.shape.IsParsed) :
  Fresh low (high + 1) (e :: parts)
  := by
  refine ⟨⟨?_, ?_, List.forall_mem_cons.mpr ⟨hshape, h.shapes⟩⟩, ?_⟩
  · rw [List.map_cons]
    refine List.nodup_cons.mpr ⟨fun hmem => ?_, h.nodup⟩
    obtain ⟨part, hpart, hsame⟩ := List.mem_map.mp hmem
    exact Nat.ne_of_lt (h.lt part hpart) (hsame.trans hid)
  · refine List.forall_mem_cons.mpr ⟨hid ▸ Nat.lt_succ_self _, fun part hpart => ?_⟩
    exact Nat.lt_succ_of_lt (h.lt part hpart)
  · exact List.forall_mem_cons.mpr ⟨hid ▸ hlow, h.low_le⟩

/-- The text that an expression covers does not matter. -/
theorem withSpan {e : Expr} {span : Span} (h : Fresh low high (parts ++ e.preorder)) :
  Fresh low high (parts ++ (e.withSpan span).preorder)
  := by
  obtain ⟨id, old, shape⟩ := e
  rw [Expr.preorder] at h
  rw [Expr.withSpan, Expr.preorder]
  have hmem : ∀ {p : Expr → Prop}, (∀ e ∈ parts ++ .node id old shape :: shapePreorder shape, p e) →
      p (.node id span shape) → ∀ e ∈ parts ++ .node id span shape :: shapePreorder shape, p e := by
    intro p hall hp
    rw [List.forall_mem_append, List.forall_mem_cons] at hall ⊢
    exact ⟨hall.1, hp, hall.2.2⟩
  have hnode : Expr.node id old shape ∈ parts ++ .node id old shape :: shapePreorder shape := by simp
  refine ⟨⟨?_, hmem h.lt (h.lt (.node id old shape) hnode),
    hmem h.shapes (h.shapes (.node id old shape) hnode)⟩, hmem h.low_le (h.low_le (.node id old shape) hnode)⟩
  simpa [Expr.id] using h.nodup

end Fresh

/-! ## Parsers -/

section

variable {α β : Type}

/--
From expressions with different identifiers a parser makes expressions with different identifiers, and a
result of a certain kind.
-/
def Makes (given : List Expr) (p : Parser α) (good : α → Prop) (made : α → List Expr) : Prop :=
  ∀ low s, low ≤ s.nextId → Fresh low s.nextId given →
    s.nextId ≤ (p s).2.nextId ∧ ∀ a, (p s).1 = .ok a → good a ∧ Fresh low (p s).2.nextId (made a)

namespace Makes

variable {given given' : List Expr} {p : Parser α} {good : α → Prop} {made : α → List Expr}

theorem bind {k : α → Parser β} {good' : β → Prop} {made' : β → List Expr} (hp : Makes given p good made)
    (hk : ∀ a, good a → Makes (made a) (k a) good' made') :
  Makes given (p >>= k) good' made'
  := by
  intro low s hlow hgiven
  obtain ⟨hnext, hmade⟩ := hp low s hlow hgiven
  rw [Ensures.bind_apply]
  rcases hrun : p s with ⟨e | a, s'⟩
  · rw [hrun] at hnext
    exact ⟨hnext, fun b hb => by cases hb⟩
  · rw [hrun] at hnext hmade
    obtain ⟨hgood, hfresh⟩ := hmade a rfl
    obtain ⟨hnext', hmade'⟩ := hk a hgood low s' (Nat.le_trans hlow hnext) hfresh
    exact ⟨Nat.le_trans hnext hnext', hmade'⟩

theorem pure_of_fresh {a : α} (hgood : good a)
    (hmade : ∀ {low high}, Fresh low high given → Fresh low high (made a)) :
  Makes given (pure a) good made
  := by
  refine fun low s _ hgiven => ⟨Nat.le_refl _, ?_⟩
  rintro _ ⟨⟩
  exact ⟨hgood, hmade hgiven⟩

theorem pure {a : α} (hgood : good a) (hmade : (made a).Subperm given) :
  Makes given (pure a) good made
  := pure_of_fresh hgood fun hgiven => hgiven.of_subperm hmade

theorem throw {e : ParseError} :
  Makes given (throw e) good made
  := fun low s _ _ => ⟨Nat.le_refl _, fun a ha => by cases ha⟩

theorem of_fresh (h : Makes given' p good made)
    (hgiven : ∀ {low high}, Fresh low high given → Fresh low high given') :
  Makes given p good made
  := fun low s hlow hfresh => h low s hlow (hgiven hfresh)

theorem of_subperm (h : Makes given' p good made) (hgiven : given'.Subperm given) :
  Makes given p good made
  := h.of_fresh fun hfresh => hfresh.of_subperm hgiven

theorem weaken {good' : α → Prop} (h : Makes given p good made) (hgood : ∀ a, good a → good' a) :
  Makes given p good' made
  := fun low s hlow hfresh => (h low s hlow hfresh).imp_right fun hall a ha => (hall a ha).imp_left (hgood a)

/-- All given expressions have forms as a parser makes them. -/
theorem of_shapes (h : (∀ e ∈ given, e.shape.IsParsed) → Makes given p good made) :
  Makes given p good made
  := fun low s hlow hfresh => h hfresh.shapes low s hlow hfresh

/-- Other expressions stay apart from those that are made. -/
theorem frame (h : Makes [] p good made) (given : List Expr) :
  Makes given p good fun a => given ++ made a
  := by
  intro low s hlow hgiven
  obtain ⟨hnext, hall⟩ := h s.nextId s (Nat.le_refl _) .nil
  refine ⟨hnext, fun a ha => ?_⟩
  obtain ⟨hgood, hfresh⟩ := hall a ha
  exact ⟨hgood, hgiven.append hfresh hlow hnext⟩

end Makes

end

/-- A form gets a new identifier. -/
theorem makes_makeExpr_shape (given : List Expr) (span : Span) (shape : Shape Expr)
    (hshape : shape.IsParsed) :
  Makes (given ++ shapePreorder shape) (makeExpr span shape) (fun e => e.shape = shape)
    fun e => given ++ e.preorder
  := by
  rintro low s hlow hgiven
  refine ⟨Nat.le_succ _, ?_⟩
  rintro _ ⟨⟩
  refine ⟨rfl, (hgiven.cons (e := .node s.nextId span shape) rfl hlow hshape).of_subperm ?_⟩
  change (given ++ (Expr.node s.nextId span shape).preorder).Subperm _
  rw [Expr.preorder]
  exact List.perm_middle.subperm

theorem makes_makeExpr (given : List Expr) (span : Span) (shape : Shape Expr)
    (hshape : shape.IsParsed) :
  Makes (given ++ shapePreorder shape) (makeExpr span shape) (fun _ => True) fun e => given ++ e.preorder
  := (makes_makeExpr_shape given span shape hshape).weaken fun _ _ => trivial

theorem makes_hiddenName (given : List Expr) :
  Makes given hiddenName (fun _ => True) fun _ => given
  := by
  intro low s _ hgiven
  refine ⟨Nat.le_refl _, ?_⟩
  rintro _ ⟨⟩
  exact ⟨trivial, hgiven⟩

end FormCompiler
