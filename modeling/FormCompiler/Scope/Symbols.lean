import FormCompiler.Source.Span
import FormCompiler.Ty.Basic

/-!
# Lexical scopes

A `SymbolTable` holds the bindings that are visible at a point of the program. Scopes nest: the
outermost one holds the globals and is never left. A name may be bound again in an inner scope,
where it hides the outer binding, but not twice in the same scope.

Each scope has a frame with its bindings in order of declaration and an index of the names. The
bindings of a frame carry its depth.
-/

namespace FormCompiler

/-- What a name is bound to. -/
inductive Storage where
  /-- A parameter or local. -/
  | stack
  | constant
  | function
  | operator
  /-- A function of the named library. -/
  | foreign (library : String)
deriving DecidableEq, Repr, Inhabited

/-- A binding. -/
structure Symbol where
  name : String
  type : Ty
  isMutable : Bool
  storage : Storage
  span : Span
  /-- Whether the binding is released when its scope is left. -/
  isResource : Bool
  /-- The depth of the scope that holds the binding. -/
  depth : Nat
  isUsed : Bool
deriving DecidableEq, Repr, Inhabited

namespace Symbol

/-- A binding that is not yet in a scope. -/
def ofStorage (storage : Storage) (isMutable : Bool) (name : String) (type : Ty) (span : Span) :
    Symbol :=
  ⟨name, type, isMutable, storage, span, false, 0, false⟩

/-- Whether a binding can be called. -/
def isCallable (s : Symbol) : Bool :=
  match s.storage with
  | .function | .operator | .foreign _ => true
  | .stack | .constant => false

end Symbol

/-- Why a name cannot be bound or used. -/
inductive SymbolError where
  | unbound
  | redeclared (previous : Span)
  | constant (declared : Span)
deriving DecidableEq, Repr, Inhabited

/-! ## Frames -/

/-- An index has the last place of each name. -/
def Indexes (index : List (String × Nat)) (names : List String) : Prop :=
  ∀ name i, index.lookup name = some i ↔ names[i]? = some name ∧ ∀ j, i < j → names[j]? ≠ some name

theorem Indexes.add {index : List (String × Nat)} {names : List String} (h : Indexes index names)
    (name : String) :
  Indexes ((name, names.length) :: index) (names ++ [name])
  := by
  intro name' i
  rw [List.lookup_cons]
  split
  · next hname =>
    obtain rfl := beq_iff_eq.mp hname
    constructor
    · rintro ⟨⟩
      refine ⟨List.getElem?_concat_length, fun j hj => ?_⟩
      rw [List.getElem?_eq_none (by rw [List.length_append]; exact hj)]
      exact Option.some_ne_none name' |>.symm
    · rintro ⟨hi, hlast⟩
      have hlt := (List.getElem?_eq_some_iff.mp hi).1
      have hle : names.length ≤ i := Nat.le_of_not_lt fun hlt => hlast _ hlt List.getElem?_concat_length
      rw [List.length_append, List.length_singleton] at hlt
      exact congrArg some (Nat.le_antisymm hle (Nat.le_of_lt_succ hlt))
  · next hname =>
    have hplace : ∀ j : Nat, (names ++ [name])[j]? = some name' ↔ names[j]? = some name' := by
      intro j
      have hne : name ≠ name' := fun heq => by simp [heq] at hname
      grind
    rw [h name' i, hplace]
    simp only [ne_eq, hplace]

/-- What a change keeps of every element is kept of all elements. -/
theorem map_modify_of_eq {α β : Type} {f : α → α} {g : α → β} (h : ∀ a, g (f a) = g a) (as : List α) (i : Nat) :
  (as.modify i f).map g = as.map g
  := by
  refine List.ext_getElem? fun j => ?_
  rw [List.getElem?_map, List.getElem?_modify, List.getElem?_map]
  cases as[j]? with
  | none => rfl
  | some a =>
    by_cases hi : i = j
    · simp [hi, h]
    · simp [hi]

/-- What a scope binds, in order of declaration, and where. -/
structure SymbolFrame where
  symbols : List Symbol
  index : List (String × Nat)
  indexed : Indexes index (symbols.map (·.name))
deriving Repr

/-- A change of bindings that leaves each in its place. -/
structure SymbolChange where
  apply : Symbol → Symbol
  name : ∀ s, (apply s).name = s.name
  depth : ∀ s, (apply s).depth = s.depth

namespace SymbolChange

def markUsed : SymbolChange := ⟨fun s => { s with isUsed := true }, fun _ => rfl, fun _ => rfl⟩

def setType (type : Ty) : SymbolChange := ⟨fun s => { s with type := type }, fun _ => rfl, fun _ => rfl⟩

end SymbolChange

namespace SymbolFrame

def empty : SymbolFrame := ⟨[], [], by simp [Indexes]⟩

/-- The binding of a name. -/
def find? (frame : SymbolFrame) (name : String) : Option Symbol :=
  (frame.index.lookup name).bind fun i => frame.symbols[i]?

def add (frame : SymbolFrame) (s : Symbol) : SymbolFrame :=
  ⟨frame.symbols ++ [s], (s.name, frame.symbols.length) :: frame.index, by
    rw [List.map_append, List.map_singleton]
    simpa using frame.indexed.add s.name⟩

/-- Changes the binding at a place. -/
def modify (frame : SymbolFrame) (i : Nat) (change : SymbolChange) : SymbolFrame :=
  ⟨frame.symbols.modify i change.apply, frame.index, by
    rw [map_modify_of_eq change.name]
    exact frame.indexed⟩

end SymbolFrame

/-! ## Tables -/

/-- The bindings in each frame carry the number of frames around it. -/
def IsStamped : List SymbolFrame → Prop
  | [] => True
  | frame :: outer => (∀ s ∈ frame.symbols, s.depth = outer.length) ∧ IsStamped outer

theorem IsStamped.drop {frames : List SymbolFrame} (h : IsStamped frames) (count : Nat) :
  IsStamped (frames.drop count)
  := by
  induction count generalizing frames with
  | zero => exact h
  | succ count ih =>
    cases frames with
    | nil => exact h
    | cons frame outer => exact ih h.2

theorem IsStamped.modify {frames : List SymbolFrame} (h : IsStamped frames) (f i : Nat) (change : SymbolChange) :
  IsStamped (frames.modify f (·.modify i change))
  := by
  induction frames generalizing f with
  | nil => simpa using h
  | cons frame outer ih =>
    cases f with
    | zero =>
      refine ⟨?_, h.2⟩
      have hdepths : (frame.modify i change).symbols.map (·.depth) = frame.symbols.map (·.depth) :=
        map_modify_of_eq change.depth _ _
      have hframe : ∀ d ∈ frame.symbols.map (·.depth), d = outer.length := List.forall_mem_map.mpr h.1
      rw [← hdepths] at hframe
      exact List.forall_mem_map.mp hframe
    | succ f =>
      refine ⟨fun s hs => (h.1 s hs).trans ?_, ih h.2 f⟩
      exact (List.length_modify _ outer f).symm

/-- The frames of all scopes that are open, the innermost first. -/
structure SymbolTable where
  frames : List SymbolFrame
  ne_nil : frames ≠ []
  stamped : IsStamped frames
deriving Repr

namespace SymbolTable

/-- The table with only the outermost scope, which is empty. -/
def empty : SymbolTable := ⟨[.empty], by simp, List.forall_mem_nil _, trivial⟩

instance : Inhabited SymbolTable := ⟨empty⟩

/-- The depth of the innermost scope. -/
def depth (table : SymbolTable) : Nat := table.frames.length - 1

/-- Opens a scope. -/
def enter (table : SymbolTable) : SymbolTable :=
  ⟨.empty :: table.frames, by simp, List.forall_mem_nil _, table.stamped⟩

/-- Leaves the innermost scope; its bindings are given back, the latest first. -/
def leave : SymbolTable → List Symbol × SymbolTable
  | ⟨frame :: next :: outer, _, stamped⟩ => (frame.symbols.reverse, ⟨next :: outer, by simp, stamped.2⟩)
  | table => ([], table)

/-- Leaves all scopes that are deeper than a given one. -/
def truncate (table : SymbolTable) (depth : Nat) : SymbolTable :=
  ⟨table.frames.drop (table.frames.length - (depth + 1)), by
    have hpos := List.length_pos_iff.mpr table.ne_nil
    rw [← List.length_pos_iff, List.length_drop]
    omega, table.stamped.drop _⟩

/-- Adds a binding to the innermost scope. -/
def push : SymbolTable → Symbol → SymbolTable
  | ⟨frame :: outer, _, stamped⟩, s =>
    ⟨frame.add { s with depth := outer.length } :: outer, by simp, by
      refine ⟨?_, stamped.2⟩
      rw [SymbolFrame.add, List.forall_mem_append, List.forall_mem_singleton]
      exact ⟨stamped.1, rfl⟩⟩
  | table, _ => table

/-- Binds a name in the innermost scope; the answer is the binding that is hidden by it. -/
def declare (table : SymbolTable) (s : Symbol) : Except SymbolError (Option Span × SymbolTable) :=
  match table.frames with
  | [] => .error .unbound
  | frame :: outer =>
    match frame.find? s.name with
    | some bound => .error (.redeclared bound.span)
    | none => .ok ((outer.findSome? (·.find? s.name)).map (·.span), table.push s)

/-- The frame that has the visible binding of a name, and the place of the binding in the frame. -/
def position? (name : String) : List SymbolFrame → Option (Nat × Nat)
  | [] => none
  | frame :: outer =>
    match frame.index.lookup name with
    | some i => some (0, i)
    | none => (position? name outer).map fun (f, i) => (f + 1, i)

/-- The visible binding of a name. -/
def peek? (table : SymbolTable) (name : String) : Option Symbol :=
  (position? name table.frames).bind fun (f, i) => table.frames[f]?.bind (·.symbols[i]?)

/-- Changes the binding at a place in a frame. -/
def modify (table : SymbolTable) (f i : Nat) (change : SymbolChange) : SymbolTable :=
  ⟨table.frames.modify f (·.modify i change), by simpa using table.ne_nil, table.stamped.modify f i change⟩

/-- The visible binding of a name, which becomes used. -/
def lookup (table : SymbolTable) (name : String) : Except SymbolError (Symbol × SymbolTable) :=
  match position? name table.frames, table.peek? name with
  | some (f, i), some s => .ok ({ s with isUsed := true }, table.modify f i .markUsed)
  | _, _ => .error .unbound

/-- The visible binding of a name that is assigned to. -/
def assignTarget (table : SymbolTable) (name : String) : Except SymbolError Symbol :=
  match table.peek? name with
  | some s => if s.isMutable then .ok s else .error (.constant s.span)
  | none => .error .unbound

/-- Gives a global another type. -/
def setGlobalType (table : SymbolTable) (name : String) (type : Ty) : SymbolTable :=
  match (table.frames.getLast table.ne_nil).index.lookup name with
  | some i => table.modify table.depth i (.setType type)
  | none => table

end SymbolTable

end FormCompiler
