import FormCompiler.Flow.Print
import FormCompiler.Machine.Allocate

/-!
# Code generation

`generate` makes the object of a program. All functions are tried, and the errors of all of them are
given if there are any.
-/

namespace FormCompiler.Machine

open FormCompiler.Flow

/-- The code of the functions so far. -/
structure Generation where
  functions : List Function
  /-- The texts of the strings in the functions. -/
  strings : List String
  errors : List CodegenError
deriving Repr, Inhabited

/-- Adds the code of a function, or the error with it. -/
def Generation.add (p : Program) (target : Target) (g : Generation) (f : Flow.Function) :
    Generation :=
  match select p target g.strings f with
  | .error e => { g with errors := g.errors ++ [e] }
  | .ok (selected, strings) =>
    match allocate target selected with
    | .error e => { g with strings := strings, errors := g.errors ++ [e] }
    | .ok code => { g with strings := strings, functions := g.functions ++ [code] }

/-- The symbols of an object. -/
def symbols (p : Program) (g : Generation) : List Symbol :=
  g.functions.map (fun f => ⟨f.name, .function⟩) ++
    p.globals.map (fun g => ⟨g.name, .global g.init.text⟩) ++
    g.strings.zipIdx.map (fun (text, i) => ⟨s!"str.{i}", .data text⟩) ++
    p.externals.map fun e => ⟨e.name, .external e.library⟩

/-- The object of a program. -/
def generate (target : Target) (name : String) (p : Program) :
    Except (List CodegenError) ObjectModule :=
  if !target.isValid then .error [.invalidTarget target.name]
  else
    let g := p.functions.foldl (Generation.add p target) ⟨[], [], []⟩
    if g.errors.isEmpty then .ok ⟨name, g.functions, symbols p g⟩ else .error g.errors

end FormCompiler.Machine
