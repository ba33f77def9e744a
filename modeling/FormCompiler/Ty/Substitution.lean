import FormCompiler.Ty.Basic

/-!
# Substitutions

A call of a generic function binds the variables of its parameter types to parts of the argument
types. `Substitution.unify` extends the bindings so far by those that make a parameter type equal
to an argument type; variables are bound in the order in which they are met, and this order names
the instance that the call needs.
-/

namespace FormCompiler

/-- What a variable is bound to. -/
inductive Binding where
  | type (type : Ty)
  | length (length : ArrayLength)
deriving DecidableEq, Repr, Inhabited

namespace Binding

/-- The written form of a binding. -/
def text : Binding → String
  | type t => t.text
  | length n => n.text

/-- The part of an instance's name that stands for a binding. -/
def mangle : Binding → String
  | type t => t.mangle
  | length n => n.text

/-- Whether a binding has variables of its own. -/
def isGeneric : Binding → Bool
  | type t => t.isGeneric
  | length n => n.isGeneric

end Binding

/-- Bindings of variables, in the order in which they were made. -/
structure Substitution where
  bindings : List (String × Binding)
deriving DecidableEq, Repr, Inhabited

/-- Why a parameter type cannot be made equal to an argument type. -/
inductive UnifyError where
  /-- The two types differ apart from variables. -/
  | mismatch
  /-- A variable would have to stand for two things. -/
  | conflict (name : String) (first second : Binding)
deriving DecidableEq, Repr, Inhabited

namespace Substitution

/-- The substitution that binds nothing. -/
def empty : Substitution := ⟨[]⟩

/-- Whether nothing is bound. -/
def isEmpty (σ : Substitution) : Bool := σ.bindings.isEmpty

/-- What a variable is bound to. -/
def get? (σ : Substitution) (name : String) : Option Binding := σ.bindings.lookup name

/-- Whether no binding has variables. -/
def isConcrete (σ : Substitution) : Bool := σ.bindings.all fun (_, b) => !b.isGeneric

/-! ## Unification -/

/--
The bindings after an attempt to unify, and why it failed, if it did. The bindings made before a
failure are kept.
-/
structure Attempt where
  bindings : Substitution
  error : Option UnifyError
deriving DecidableEq, Repr, Inhabited

/-- The attempt that goes on with a second one where the first did not fail. -/
def Attempt.andThen (first : Attempt) (second : Substitution → Attempt) : Attempt :=
  match first.error with
  | some _ => first
  | none => second first.bindings

/-- Binds a variable, unless it is bound to something else. -/
def bind (σ : Substitution) (name : String) (value : Binding) : Attempt :=
  match σ.get? name with
  | some bound =>
    if bound = value then ⟨σ, none⟩ else ⟨σ, some (.conflict name bound value)⟩
  | none => ⟨⟨σ.bindings ++ [(name, value)]⟩, none⟩

/-- Makes the length of a parameter equal to that of an argument. -/
def unifyLength (σ : Substitution) : ArrayLength → ArrayLength → Attempt
  | .var name, length => σ.bind name (.length length)
  | .fixed n, length => if .fixed n = length then ⟨σ, none⟩ else ⟨σ, some .mismatch⟩

/-- Succeeds if two types are the same. -/
def unifySame (σ : Substitution) (param arg : Ty) : Attempt :=
  if param = arg then ⟨σ, none⟩ else ⟨σ, some .mismatch⟩

mutual

/-- Binds the variables of a parameter type so that it becomes an argument type. -/
def unify (σ : Substitution) : Ty → Ty → Attempt
  | .var name, arg => σ.bind name (.type arg)
  | .array element length, .array element' length' =>
    (unify σ element element').andThen fun σ => σ.unifyLength length length'
  | .tuple elements, .tuple elements' =>
    if elements.length = elements'.length then unifyAll σ elements elements'
    else ⟨σ, some .mismatch⟩
  | .function params result, .function params' result' =>
    if params.length = params'.length then
      (unifyAll σ params params').andThen fun σ => unify σ result result'
    else ⟨σ, some .mismatch⟩
  | .int, arg => unifySame σ .int arg
  | .frac, arg => unifySame σ .frac arg
  | .bool, arg => unifySame σ .bool arg
  | .str, arg => unifySame σ .str arg
  | .ptr, arg => unifySame σ .ptr arg
  | .none, arg => unifySame σ .none arg
  | .sizedInt bits, arg => unifySame σ (.sizedInt bits) arg
  | .sizedFrac bits, arg => unifySame σ (.sizedFrac bits) arg
  | .array _ _, _ | .tuple _, _ | .function _ _, _ => ⟨σ, some .mismatch⟩

/-- Unifies two lists of types of the same length. -/
def unifyAll (σ : Substitution) : List Ty → List Ty → Attempt
  | param :: params, arg :: args =>
    (unify σ param arg).andThen fun σ => unifyAll σ params args
  | _, _ => ⟨σ, none⟩

end

/-! ## Application -/

/-- A length with its variable replaced, if that is bound to a length. -/
def applyLength (σ : Substitution) : ArrayLength → ArrayLength
  | .fixed n => .fixed n
  | .var name =>
    match σ.get? name with
    | some (.length n) => n
    | _ => .var name

mutual

/-- A type with its bound variables replaced. -/
def apply (σ : Substitution) : Ty → Ty
  | .var name =>
    match σ.get? name with
    | some (.type t) => t
    | _ => .var name
  | .array element length => .array (apply σ element) (σ.applyLength length)
  | .tuple elements => .tuple (applyAll σ elements)
  | .function params result => .function (applyAll σ params) (apply σ result)
  | .int => .int
  | .frac => .frac
  | .bool => .bool
  | .str => .str
  | .ptr => .ptr
  | .none => .none
  | .sizedInt bits => .sizedInt bits
  | .sizedFrac bits => .sizedFrac bits

/-- Several types with their bound variables replaced. -/
def applyAll (σ : Substitution) : List Ty → List Ty
  | [] => []
  | type :: types => apply σ type :: applyAll σ types

end

/-- A binding with its bound variables replaced. -/
def applyBinding (σ : Substitution) : Binding → Binding
  | .type t => .type (σ.apply t)
  | .length n => .length (σ.applyLength n)

/--
The substitution with each of its bindings rewritten by an outer one. A generic function that calls
another binds the other's variables to its own ones, until it is itself instantiated.
-/
def compose (σ outer : Substitution) : Substitution :=
  ⟨σ.bindings.map fun (name, b) => (name, outer.applyBinding b)⟩

/-- The name of the instance of a generic function. -/
def mangle (σ : Substitution) (base : String) : String :=
  base ++ String.join (σ.bindings.map fun (_, b) => "$" ++ b.mangle)

end Substitution

end FormCompiler
