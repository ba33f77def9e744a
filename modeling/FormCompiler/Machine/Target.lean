import FormCompiler.Word.Basic

/-!
# Target machines

A target is a register machine. Its last registers are scratch registers, which carry values between
memory and instructions; the others can be given to the values of a program.
-/

namespace FormCompiler.Machine

/-- A register, by its number. -/
abbrev Reg := Nat

/-- A target machine. -/
structure Target where
  name : String
  /-- The number of registers, at most 255. -/
  registers : Nat
  /-- How many of them are scratch registers. -/
  scratchRegisters : Nat
  /-- The number of lanes of a vector; there is none without a vector unit. -/
  lanes : Option Nat
deriving DecidableEq, Repr, Inhabited

namespace Target

/-- The largest register number that can be written. -/
def maxRegister : Nat := 255

/-- The number of scratch registers that allocation needs. -/
def neededScratch : Nat := 2

/-- Sixteen registers and vectors of four lanes. -/
def standard : Target := ⟨"kiln-abstract", 16, neededScratch, some 4⟩

/-- The standard machine without a vector unit. -/
def scalar : Target := { standard with name := "kiln-scalar", lanes := none }

/-- The number of registers that can be given to values. -/
def allocatableCount (t : Target) : Nat := t.registers - t.scratchRegisters

/-- The registers that can be given to values. -/
def allocatable (t : Target) : List Reg := List.range t.allocatableCount

/-- The first scratch register. -/
def firstScratch (t : Target) : Reg := t.allocatableCount

/-- The second scratch register. -/
def secondScratch (t : Target) : Reg := min (t.allocatableCount + 1) maxRegister

/-- Whether vectors of so many lanes can be computed with. -/
def hasLanes (t : Target) (width : Nat) : Bool := t.lanes == some width

/-- Whether there are two scratch registers and a register for values. -/
def isValid (t : Target) : Bool :=
  neededScratch ≤ t.scratchRegisters && t.scratchRegisters < t.registers

end Target

end FormCompiler.Machine
