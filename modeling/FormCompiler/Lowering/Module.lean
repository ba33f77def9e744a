import FormCompiler.Ast.Item
import FormCompiler.Lowering.Expr

/-!
# Lowering of units

`lowerModule` makes the program of a checked unit. A generic function has no code of its own: each
instance of it that is called is lowered under a name of its own, after all other functions, and may
call further instances. As nothing bounds the number of instances in general, only so many are
lowered; `Lowered.pending` holds those that are left, and is empty as long as the limit suffices.
-/

namespace FormCompiler

open FormCompiler.Flow

/-- The name of the function with the expressions outside of functions. -/
def topLevelName : String := "__toplevel"

/-- The most instances that are lowered. -/
def instanceLimit : Nat := 10000

/-- A function with a body. -/
structure Definition where
  name : String
  body : List Expr
  span : Span
deriving Repr, Inhabited

/-- The function that an item defines. -/
def Item.definition? : Item → Option Definition
  | .function decl => some ⟨decl.name, decl.body, decl.span⟩
  | .operator decl => some ⟨decl.symbol, decl.body, decl.span⟩
  | _ => none

/-- The expression that an item is. -/
def Item.expr? : Item → Option Expr
  | .expr e => some e
  | _ => none

/-- The result of lowering a unit. -/
structure Lowered where
  program : Program
  warnings : List ReleaseWarning
  problems : List LowerProblem
  /-- The instances that are called and have not been lowered. -/
  pending : List Instance
deriving Repr, Inhabited

/-! ## Single functions -/

/-- The function with an open entry block, before anything has been lowered. -/
def Flow.Function.start (name : String) (result : ValueType) (flags : Flags) : Function :=
  ⟨name, [], result, [.empty], 0, [], [], [], flags⟩

/-- The state in which the lowering of a function starts. -/
def LowerState.start (shared : UnitState) (f : Function) : LowerState :=
  ⟨shared, f, f.entry, true, [], none⟩

namespace Lower

/-- Gives the parameters of a function slots of their own. -/
def params (span : Span) : List (String × Ty) → Lower Unit
  | [] => return
  | (name, type) :: rest => do
    let type ← concrete span type
    let v ← blockParam (← get).function.entry type
    let slot ← freshSlot (some name) type
    emit (.store slot v) none
    bindName name slot
    modifyFunction fun f => { f with params := f.params ++ [v] }
    params span rest

/-- Ends a function; a value is missing only if the end cannot be reached. -/
def finish (value : Option VarId) : Lower Unit := do
  if ← isOpen then
    if (← get).function.result.isNone then terminate (.ret none)
    else
      match value with
      | some value => terminate (.ret (some value))
      | none => terminate .unreachable

/-- Lowers a function. -/
def function (span : Span) (sig : FunctionSig) (body : List Expr) : Lower Unit := do
  let result ← concrete span (← required span .resultUnknown sig.result)
  modifyFunction fun f => { f with result := result }
  let value ← inScope do
    params span sig.params
    statements body
  finish value

/-- Lowers expressions outside of functions; their values are dropped. -/
def topLevel : List Expr → Lower Unit
  | [] => return
  | e :: rest => do
    if ← isOpen then
      discard (expr (.statement rest false) e)
      topLevel rest

end Lower

/-! ## Units -/

/-- The state while a unit is being lowered. -/
structure UnitLowering where
  shared : UnitState
  functions : List Function
  problems : List LowerProblem
deriving Repr, Inhabited

/-- Lowers one function and adds it, or the problem with it. -/
def UnitLowering.add (unit : UnitLowering) (context : LowerContext) (span : Span)
    (initial : Function) (action : Lower Unit) : UnitLowering :=
  match (action.run context).run.run (.start unit.shared initial) with
  | (.ok _, state) =>
    { unit with shared := state.shared, functions := unit.functions ++ [state.function] }
  | (.error e, state) =>
    let span := if e.span = .nowhere then span else e.span
    { unit with
      shared := state.shared
      problems := unit.problems ++ [⟨initial.name, e.fault, span⟩] }

/-- Lowers a definition under a name, with its type variables bound. -/
def UnitLowering.addDefinition (unit : UnitLowering) (checked : CheckedModule) (sig : FunctionSig)
    (source : Definition) (name : String) (bindings : Substitution) (isInstance : Bool) :
    UnitLowering :=
  unit.add ⟨checked, bindings⟩ source.span
    (.start name .none ⟨sig.isTailRecursive, isInstance, false⟩)
    (Lower.function source.span sig source.body)

/-- Lowers the expressions outside of functions, if there are any. -/
def UnitLowering.addTopLevel (unit : UnitLowering) (checked : CheckedModule) :
    List Expr → UnitLowering
  | [] => unit
  | first :: rest =>
    unit.add ⟨checked, .empty⟩ ((rest.map (·.span)).foldl Span.merge first.span)
      (.start topLevelName .none ⟨false, false, true⟩) do
        Lower.inScope (Lower.topLevel (first :: rest))
        Lower.finish none

/-- The definitions of a unit with their signatures. Of several of one name only the first counts. -/
def signedDefinitions (m : Module) (checked : CheckedModule) : List (FunctionSig × Definition) :=
  (m.flatItems.filterMap Item.definition?).filterMap fun source => do
    let sig ← checked.signature? source.name
    guard (sig.span = source.span)
    return (sig, source)

/-- Lowers pending instances, at most as many as the first argument says. -/
def UnitLowering.addInstances (checked : CheckedModule)
    (generics : List (FunctionSig × Definition)) : Nat → UnitLowering → UnitLowering
  | 0, unit => unit
  | limit + 1, unit =>
    match unit.shared.pending with
    | [] => unit
    | inst :: pending =>
      let unit := { unit with shared := { unit.shared with pending := pending } }
      let unit :=
        match generics.find? fun (_, source) => source.name == inst.generic with
        | none => unit
        | some (sig, source) =>
          unit.addDefinition checked sig source inst.name inst.bindings true
      addInstances checked generics limit unit

/-- The global constants of a unit, and problems with those that have no type. -/
def lowerGlobals (checked : CheckedModule) : List Global × List LowerProblem :=
  (checked.globals.filterMap fun g =>
      (ValueType.ofTy? g.type).map fun type => ⟨g.name, type, g.value⟩,
    checked.globals.filterMap fun g =>
      if (ValueType.ofTy? g.type).isSome then none else some ⟨g.name, .globalType, g.span⟩)

/-- The program of a checked unit. -/
def lowerModule (m : Module) (checked : CheckedModule) : Lowered :=
  let (globals, problems) := lowerGlobals checked
  let definitions := signedDefinitions m checked
  let generics := definitions.filter fun (sig, _) => sig.isGeneric
  let plain := definitions.filter fun (sig, _) => !sig.isGeneric
  let unit : UnitLowering := ⟨.initial, [], problems⟩
  let unit := plain.foldl
    (fun unit (sig, source) =>
      unit.addDefinition checked sig source source.name .empty false) unit
  let unit := unit.addTopLevel checked (m.flatItems.filterMap Item.expr?)
  let unit := unit.addInstances checked generics instanceLimit
  ⟨⟨unit.functions, globals, unit.shared.externals⟩, unit.shared.warnings, unit.problems,
    unit.shared.pending⟩

end FormCompiler
