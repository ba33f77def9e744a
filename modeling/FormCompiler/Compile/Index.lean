import FormCompiler.Diagnostic.Basic
import FormCompiler.Typing.Checked

/-!
# What units offer each other

A unit may call the functions of other units. The *index* holds the functions that the units export,
by name. Operators belong to the grammar of their unit, foreign functions are declared where they are
used, and a generic function has no code outside of its unit, so that none of these is exported. The
first unit that defines a name exports it; a later definition is a conflict.
-/

namespace FormCompiler

/-- A function that a unit exports. -/
structure Export where
  /-- The unit, by its position. -/
  owner : Nat
  signature : FunctionSig
deriving DecidableEq, Repr, Inhabited

/-- A second definition of an exported name. -/
structure Conflict where
  name : String
  /-- The unit with the second definition. -/
  owner : Nat
  span : Span
  /-- The unit whose definition is exported. -/
  previousOwner : Nat
  previousSpan : Span
deriving DecidableEq, Repr, Inhabited

/-- The diagnostic of a conflict. -/
def Conflict.diagnostic (c : Conflict) : Diagnostic :=
  ((Diagnostic.ofCode .redeclaration s!"`{c.name}` is already defined by another unit").withLabel
    c.span "second definition").withNote
    s!"the definition in unit #{c.previousOwner} is the one exported"

/-- Whether a function with a signature is exported. -/
def FunctionSig.isExported (sig : FunctionSig) : Bool :=
  sig.kind == .function && !sig.isGeneric

/-- The functions that units export. -/
structure GlobalIndex where
  exports : List Export
  conflicts : List Conflict
deriving DecidableEq, Repr, Inhabited

namespace GlobalIndex

/-- The index of no units. -/
def empty : GlobalIndex := ⟨[], []⟩

/-- The function that is exported under a name. -/
def export? (index : GlobalIndex) (name : String) : Option Export :=
  index.exports.find? (·.signature.name == name)

/-- The exported signatures. -/
def signatures (index : GlobalIndex) : List FunctionSig := index.exports.map (·.signature)

/-- The conflicts that a unit causes. -/
def conflictsIn (index : GlobalIndex) (owner : Nat) : List Conflict :=
  index.conflicts.filter (·.owner == owner)

/-- Adds an exported function, or a conflict if its name is taken. -/
def insert (index : GlobalIndex) (item : Export) : GlobalIndex :=
  match index.export? item.signature.name with
  | none => { index with exports := index.exports ++ [item] }
  | some previous =>
    { index with
      conflicts := index.conflicts ++
        [⟨item.signature.name, item.owner, item.signature.span, previous.owner,
          previous.signature.span⟩] }

/-- The exports of a unit. -/
def exportsOf (owner : Nat) (signatures : List FunctionSig) : List Export :=
  (signatures.filter FunctionSig.isExported).map (⟨owner, ·⟩)

/-- The index of units, of each of which the signatures are given. -/
def ofSignatures (units : List (List FunctionSig)) : GlobalIndex :=
  (units.zipIdx.flatMap fun (signatures, owner) => exportsOf owner signatures).foldl insert empty

end GlobalIndex

end FormCompiler
