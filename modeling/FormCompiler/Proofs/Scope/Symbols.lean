import FormCompiler.Proofs.Scope.Bindings

/-!
# The table of symbols is a stack of scopes

A `ScopeStack` has only a list of bindings for each scope. A table `Represents` it if its frames have the same
bindings, and the names in each frame differ. Every call keeps the table a representation of the stack and has
the same answer.
-/

namespace FormCompiler

variable {name : String} {s : Symbol}

/-! ## Stacks of scopes -/

/-- The scopes that are open, the innermost first; each lists its bindings in order of declaration. -/
abbrev ScopeStack := List (List Symbol)

namespace ScopeStack

/-- The stack with only the outermost scope, which is empty. -/
def new : ScopeStack := [[]]

def enter (stack : ScopeStack) : ScopeStack := [] :: stack

/-- Takes the innermost scope off the stack and gives back its bindings, the latest first. -/
def leave : ScopeStack → List Symbol × ScopeStack
  | scope :: outer :: rest => (scope.reverse, outer :: rest)
  | stack => ([], stack)

/-- Keeps the scopes that are no deeper than a given one. -/
def truncate (stack : ScopeStack) (depth : Nat) : ScopeStack := stack.drop (stack.length - (depth + 1))

/-- The binding of a name in the innermost scope that has it. -/
def peek? (stack : ScopeStack) (name : String) : Option Symbol :=
  stack.findSome? fun scope => scope.find? (·.name == name)

/-- Adds a binding to the innermost scope unless it has the name; the answer is the nearest outer binding. -/
def declare (stack : ScopeStack) (s : Symbol) : Except SymbolError (Option Span × ScopeStack) :=
  match stack with
  | [] => .error .unbound
  | scope :: outer =>
    match scope.find? (·.name == s.name) with
    | some bound => .error (.redeclared bound.span)
    | none =>
      .ok ((peek? outer s.name).map (·.span), (scope ++ [{ s with depth := outer.length }]) :: outer)

/-- Changes the binding of a name in a scope. -/
def change (name : String) (f : Symbol → Symbol) (scope : List Symbol) : List Symbol :=
  scope.map fun s => if s.name == name then f s else s

/-- Changes the binding of a name in the innermost scope that has it. -/
def modify (name : String) (f : Symbol → Symbol) : ScopeStack → ScopeStack
  | [] => []
  | scope :: outer =>
    if scope.any (·.name == name) then change name f scope :: outer else scope :: modify name f outer

/-- Finds the binding of a name and marks it as used. -/
def lookup (stack : ScopeStack) (name : String) : Except SymbolError (Symbol × ScopeStack) :=
  match stack.peek? name with
  | some s => .ok ({ s with isUsed := true }, modify name (fun s => { s with isUsed := true }) stack)
  | none => .error .unbound

def assignTarget (stack : ScopeStack) (name : String) : Except SymbolError Symbol :=
  match stack.peek? name with
  | some s => if s.isMutable then .ok s else .error (.constant s.span)
  | none => .error .unbound

/-- Changes the type of a binding in the outermost scope. -/
def setGlobalType : ScopeStack → String → Ty → ScopeStack
  | [], _, _ => []
  | [globals], name, type => [change name (fun s => { s with type := type }) globals]
  | scope :: outer, name, type => scope :: setGlobalType outer name type

end ScopeStack

/-! ## Calls -/

/-- What is done with a table of symbols. -/
inductive ScopeCall where
  | enter
  | leave
  | truncate (depth : Nat)
  | declare (s : Symbol)
  | lookup (name : String)
  | peek (name : String)
  | assignTarget (name : String)
  | setGlobalType (name : String) (type : Ty)

inductive ScopeAnswer where
  | done
  | released (symbols : List Symbol)
  | declared (hidden : Option Span)
  | found (s : Symbol)
  | peeked (s : Option Symbol)
  | failed (e : SymbolError)

/-- What can be done with a table of symbols, or with anything that takes the place of one. -/
structure ScopeOps (σ : Type) where
  enter : σ → σ
  leave : σ → List Symbol × σ
  truncate : σ → Nat → σ
  declare : σ → Symbol → Except SymbolError (Option Span × σ)
  lookup : σ → String → Except SymbolError (Symbol × σ)
  peek? : σ → String → Option Symbol
  assignTarget : σ → String → Except SymbolError Symbol
  setGlobalType : σ → String → Ty → σ

def SymbolTable.ops : ScopeOps SymbolTable :=
  ⟨enter, leave, truncate, declare, lookup, peek?, assignTarget, setGlobalType⟩

def ScopeStack.ops : ScopeOps ScopeStack :=
  ⟨enter, leave, truncate, declare, lookup, peek?, assignTarget, setGlobalType⟩

namespace ScopeOps

/-- Makes a call; one that fails leaves everything as it was. -/
def call (ops : ScopeOps σ) (state : σ) : ScopeCall → ScopeAnswer × σ
  | .enter => (.done, ops.enter state)
  | .leave => (.released (ops.leave state).1, (ops.leave state).2)
  | .truncate depth => (.done, ops.truncate state depth)
  | .declare s =>
    match ops.declare state s with
    | .ok (hidden, after) => (.declared hidden, after)
    | .error e => (.failed e, state)
  | .lookup name =>
    match ops.lookup state name with
    | .ok (s, after) => (.found s, after)
    | .error e => (.failed e, state)
  | .peek name => (.peeked (ops.peek? state name), state)
  | .assignTarget name =>
    match ops.assignTarget state name with
    | .ok s => (.found s, state)
    | .error e => (.failed e, state)
  | .setGlobalType name type => (.done, ops.setGlobalType state name type)

/-- Makes some calls; the answers, and what there is after them. -/
def run (ops : ScopeOps σ) : List ScopeCall → σ → List ScopeAnswer × σ
  | [], state => ([], state)
  | first :: rest, state =>
    let (answer, next) := ops.call state first
    let (later, last) := ops.run rest next
    (answer :: later, last)

end ScopeOps

/-! ## Representation -/

/-- The names that are bound in a frame differ. -/
def SymbolFrame.IsDistinct (frame : SymbolFrame) : Prop := (frame.symbols.map (·.name)).Nodup

/-- A table has the scopes of a stack. -/
structure Represents (table : SymbolTable) (stack : ScopeStack) : Prop where
  scopes : table.frames.map (·.symbols) = stack
  distinct : ∀ frame ∈ table.frames, frame.IsDistinct

namespace SymbolFrame

variable {frame : SymbolFrame} {frames : List SymbolFrame}

/-- The binding of a name is the only one. -/
theorem IsDistinct.find?_eq_some_iff (h : frame.IsDistinct) :
  frame.find? name = some s ↔ s ∈ frame.symbols ∧ s.name = name
  := by
  rw [frame.find?_eq]
  constructor
  · intro hfind
    exact ⟨List.mem_reverse.mp (List.mem_of_find?_eq_some hfind), by simpa using List.find?_some hfind⟩
  · rintro ⟨hs, rfl⟩
    cases hfind : frame.symbols.reverse.find? (·.name == s.name) with
    | none => exact absurd (List.find?_eq_none.mp hfind s (List.mem_reverse.mpr hs)) (by simp)
    | some s' =>
      have hname : s'.name = s.name := by simpa using List.find?_some hfind
      rw [List.inj_on_of_nodup_map h (List.mem_reverse.mp (List.mem_of_find?_eq_some hfind)) hs hname]

/-- A name stands for its first binding. -/
theorem IsDistinct.find?_eq (h : frame.IsDistinct) (name : String) :
  frame.find? name = frame.symbols.find? (·.name == name)
  := by
  cases hfind : frame.symbols.find? (·.name == name) with
  | some s => exact h.find?_eq_some_iff.mpr ⟨List.mem_of_find?_eq_some hfind, by simpa using List.find?_some hfind⟩
  | none =>
    refine Option.eq_none_iff_forall_ne_some.mpr fun s hs => ?_
    obtain ⟨hmem, hname⟩ := h.find?_eq_some_iff.mp hs
    exact List.find?_eq_none.mp hfind s hmem (beq_iff_eq.mpr hname)

theorem IsDistinct.add (h : frame.IsDistinct) (hfind : frame.find? s.name = none) :
  (frame.add s).IsDistinct
  := by
  rw [IsDistinct, SymbolFrame.add, List.map_append, List.nodup_append_comm]
  refine List.nodup_cons.mpr ⟨fun hname => ?_, h⟩
  obtain ⟨bound, hbound, hname⟩ := List.mem_map.mp hname
  cases hfind.symm.trans (h.find?_eq_some_iff.mpr ⟨hbound, hname⟩)

/-- The change of a binding by its place is one by its name. -/
theorem IsDistinct.symbols_modify (h : frame.IsDistinct) {i : Nat} (hlookup : frame.index.lookup name = some i)
    (change : SymbolChange) :
  (frame.modify i change).symbols = ScopeStack.change name change.apply frame.symbols
  := by
  have hpairwise : frame.symbols.Pairwise fun s s' => s.name ≠ s'.name := List.pairwise_map.mp h
  obtain ⟨before, s, after, hsymbols, rfl, rfl, hlater⟩ := frame.exists_split hlookup
  have hbefore : ∀ other ∈ before, other.name ≠ s.name := by
    rw [hsymbols, List.pairwise_append] at hpairwise
    exact fun other hother => hpairwise.2.2 other hother s List.mem_cons_self
  have hkept : ∀ part : List Symbol, (∀ other ∈ part, other.name ≠ s.name) →
      ScopeStack.change s.name change.apply part = part := by
    intro part hpart
    exact (List.map_congr_left fun other hother => by simp [hpart other hother]).trans (List.map_id' part)
  have hmodify : (frame.modify before.length change).symbols = before ++ change.apply s :: after := by
    change frame.symbols.modify before.length change.apply = _
    rw [hsymbols]
    exact List.modifyTailIdx_add _ 0 before _
  rw [hmodify, hsymbols, ScopeStack.change, List.map_append, List.map_cons, if_pos (beq_self_eq_true _)]
  exact congrArg₂ (· ++ change.apply s :: ·) (hkept before hbefore).symm (hkept after hlater).symm

variable (h : ∀ frame ∈ frames, frame.IsDistinct)

include h

/-- A change leaves the names as they are. -/
theorem isDistinct_modify (f i : Nat) (change : SymbolChange) :
  ∀ frame ∈ frames.modify f (·.modify i change), frame.IsDistinct
  := by
  have hnames := map_modify_of_eq (f := (·.modify i change)) (g := fun frame : SymbolFrame => frame.symbols.map (·.name))
    (fun frame => map_modify_of_eq change.name frame.symbols i) frames f
  have hdistinct : ∀ names ∈ frames.map (fun frame => frame.symbols.map (·.name)), names.Nodup :=
    List.forall_mem_map.mpr h
  rw [← hnames] at hdistinct
  exact fun frame hframe => hdistinct _ (List.mem_map_of_mem hframe)

theorem findSome?_scopes (name : String) :
  frames.findSome? (·.find? name) = ScopeStack.peek? (frames.map (·.symbols)) name
  := by
  induction frames with
  | nil => rfl
  | cons frame outer ih =>
    obtain ⟨hframe, houter⟩ := List.forall_mem_cons.mp h
    rw [List.findSome?_cons, List.map_cons, ScopeStack.peek?, List.findSome?_cons, hframe.find?_eq, ih houter]
    rfl

theorem scopes_modify {f i : Nat} (hplace : SymbolTable.position? name frames = some (f, i)) (change : SymbolChange) :
  (frames.modify f (·.modify i change)).map (·.symbols)
    = ScopeStack.modify name change.apply (frames.map (·.symbols))
  := by
  induction frames generalizing f with
  | nil => cases hplace
  | cons frame outer ih =>
    obtain ⟨hframe, houter⟩ := List.forall_mem_cons.mp h
    rw [SymbolTable.position?] at hplace
    rw [List.map_cons, ScopeStack.modify]
    cases hlookup : frame.index.lookup name with
    | some j =>
      rw [hlookup] at hplace
      obtain ⟨rfl, rfl⟩ := Prod.mk.inj (Option.some.inj hplace)
      obtain ⟨before, s, after, hsymbols, -, hname, -⟩ := frame.exists_split hlookup
      have hany : frame.symbols.any (·.name == name) = true := by simp [hsymbols, hname]
      rw [if_pos hany, List.modify_zero_cons, List.map_cons, hframe.symbols_modify hlookup]
    | none =>
      rw [hlookup] at hplace
      obtain ⟨⟨f, i⟩, houterPlace, hsame⟩ := Option.map_eq_some_iff.mp hplace
      obtain ⟨rfl, rfl⟩ := Prod.mk.inj hsame
      have hany : ¬frame.symbols.any (·.name == name) = true := by
        simpa using frame.forall_name_ne hlookup
      rw [if_neg hany, List.modify_succ_cons, List.map_cons, ih houter houterPlace]

theorem scopes_setGlobalType (hne : frames ≠ []) (name : String) (type : Ty) :
  ScopeStack.setGlobalType (frames.map (·.symbols)) name type
    = match (frames.getLast hne).index.lookup name with
      | some i => (frames.modify (frames.length - 1) (·.modify i (.setType type))).map (·.symbols)
      | none => frames.map (·.symbols)
  := by
  induction frames with
  | nil => exact absurd rfl hne
  | cons frame outer ih =>
    obtain ⟨hframe, houter⟩ := List.forall_mem_cons.mp h
    cases outer with
    | nil =>
      change [ScopeStack.change name (SymbolChange.setType type).apply frame.symbols] = _
      rw [List.getLast_singleton]
      cases hlookup : frame.index.lookup name with
      | some i =>
        rw [← hframe.symbols_modify hlookup]
        rfl
      | none =>
        have hother := frame.forall_name_ne hlookup
        refine congrArg ([·]) ((List.map_congr_left fun s hs => ?_).trans (List.map_id' _))
        rw [if_neg (by simpa using hother s hs)]
    | cons next outer =>
      have hinner := ih houter (List.cons_ne_nil _ _)
      rw [List.getLast_cons (List.cons_ne_nil _ _)]
      change frame.symbols :: ScopeStack.setGlobalType ((next :: outer).map (·.symbols)) name type = _
      rw [hinner]
      split <;> rfl

end SymbolFrame

/-! ## Calls on a table and on a stack -/

/-- Both fail in the same way, or both give the same and go on to a table that represents the stack. -/
def SameOutcome (x : Except SymbolError (α × SymbolTable)) (y : Except SymbolError (α × ScopeStack)) : Prop :=
  (∃ e, x = .error e ∧ y = .error e)
    ∨ ∃ a table stack, x = .ok (a, table) ∧ y = .ok (a, stack) ∧ Represents table stack

namespace Represents

variable {table : SymbolTable} {stack : ScopeStack}

theorem empty :
  Represents .empty .new
  := ⟨rfl, List.forall_mem_singleton.mpr List.nodup_nil⟩

variable (h : Represents table stack)

include h

theorem length :
  table.frames.length = stack.length
  := by rw [← h.scopes, List.length_map]

theorem peek? (name : String) :
  table.peek? name = stack.peek? name
  := by rw [← h.scopes, ← SymbolFrame.findSome?_scopes h.distinct, SymbolTable.peek?, SymbolFrame.position?_eq]

theorem enter :
  Represents table.enter stack.enter
  := ⟨congrArg ([] :: ·) h.scopes, List.forall_mem_cons.mpr ⟨List.nodup_nil, h.distinct⟩⟩

theorem truncate (depth : Nat) :
  Represents (table.truncate depth) (stack.truncate depth)
  := by
  refine ⟨?_, fun frame hframe => h.distinct frame (List.mem_of_mem_drop hframe)⟩
  rw [ScopeStack.truncate, ← h.length, ← h.scopes, ← List.map_drop]
  rfl

theorem leave :
  table.leave.1 = stack.leave.1 ∧ Represents table.leave.2 stack.leave.2
  := by
  obtain ⟨rfl, hdistinct⟩ := h
  obtain ⟨_ | ⟨frame, _ | ⟨next, outer⟩⟩, hne, hstamped⟩ := table
  · exact absurd rfl hne
  · exact ⟨rfl, rfl, hdistinct⟩
  · exact ⟨rfl, rfl, (List.forall_mem_cons.mp hdistinct).2⟩

theorem declare (s : Symbol) :
  SameOutcome (table.declare s) (stack.declare s)
  := by
  obtain ⟨rfl, hdistinct⟩ := h
  obtain ⟨_ | ⟨frame, outer⟩, hne, hstamped⟩ := table
  · exact absurd rfl hne
  · obtain ⟨hframe, houter⟩ := List.forall_mem_cons.mp hdistinct
    rw [SymbolTable.declare, ScopeStack.declare.eq_def, List.map_cons]
    dsimp only
    rw [← hframe.find?_eq]
    cases hfind : frame.find? s.name with
    | some bound => exact .inl ⟨_, rfl, rfl⟩
    | none =>
      refine .inr ⟨_, _, _, rfl, by rw [SymbolFrame.findSome?_scopes houter], ?_, ?_⟩
      · rw [List.length_map]
        rfl
      · exact List.forall_mem_cons.mpr ⟨hframe.add hfind, houter⟩

theorem lookup (name : String) :
  SameOutcome (table.lookup name) (stack.lookup name)
  := by
  rw [SymbolTable.lookup_eq, ScopeStack.lookup, h.peek?]
  cases hpeek : stack.peek? name with
  | none => exact .inl ⟨_, rfl, rfl⟩
  | some s =>
    refine .inr ⟨_, _, _, rfl, rfl, ?_⟩
    cases hplace : SymbolTable.position? name table.frames with
    | none =>
      rw [← h.peek?, SymbolTable.peek?, hplace] at hpeek
      cases hpeek
    | some place =>
      rw [SymbolTable.markUsed, hplace]
      refine ⟨?_, SymbolFrame.isDistinct_modify h.distinct _ _ _⟩
      exact (SymbolFrame.scopes_modify h.distinct hplace _).trans (by rw [h.scopes]; rfl)

theorem assignTarget (name : String) :
  table.assignTarget name = stack.assignTarget name
  := by
  rw [SymbolTable.assignTarget, h.peek?]
  rfl

theorem setGlobalType (name : String) (type : Ty) :
  Represents (table.setGlobalType name type) (stack.setGlobalType name type)
  := by
  have hscopes := SymbolFrame.scopes_setGlobalType h.distinct table.ne_nil name type
  rw [h.scopes] at hscopes
  rw [hscopes, SymbolTable.setGlobalType]
  cases (table.frames.getLast table.ne_nil).index.lookup name with
  | some i => exact ⟨rfl, SymbolFrame.isDistinct_modify h.distinct _ _ _⟩
  | none => exact ⟨h.scopes, h.distinct⟩

/-- Every call has the same answer, and the table goes on to represent the stack. -/
theorem call (c : ScopeCall) :
  (SymbolTable.ops.call table c).1 = (ScopeStack.ops.call stack c).1
    ∧ Represents (SymbolTable.ops.call table c).2 (ScopeStack.ops.call stack c).2
  := by
  cases c with
  | enter => exact ⟨rfl, h.enter⟩
  | leave => exact ⟨congrArg ScopeAnswer.released h.leave.1, h.leave.2⟩
  | truncate depth => exact ⟨rfl, h.truncate depth⟩
  | declare s =>
    obtain ⟨e, htable, hstack⟩ | ⟨a, table', stack', htable, hstack, hnext⟩ := h.declare s
    · simp only [ScopeOps.call, SymbolTable.ops, ScopeStack.ops, htable, hstack]
      exact ⟨trivial, h⟩
    · simp only [ScopeOps.call, SymbolTable.ops, ScopeStack.ops, htable, hstack]
      exact ⟨trivial, hnext⟩
  | lookup name =>
    obtain ⟨e, htable, hstack⟩ | ⟨a, table', stack', htable, hstack, hnext⟩ := h.lookup name
    · simp only [ScopeOps.call, SymbolTable.ops, ScopeStack.ops, htable, hstack]
      exact ⟨trivial, h⟩
    · simp only [ScopeOps.call, SymbolTable.ops, ScopeStack.ops, htable, hstack]
      exact ⟨trivial, hnext⟩
  | peek name => exact ⟨congrArg ScopeAnswer.peeked (h.peek? name), h⟩
  | assignTarget name =>
    simp only [ScopeOps.call, SymbolTable.ops, ScopeStack.ops, h.assignTarget]
    split
    · exact ⟨rfl, h⟩
    · exact ⟨rfl, h⟩
  | setGlobalType name type => exact ⟨rfl, h.setGlobalType name type⟩

theorem run (calls : List ScopeCall) :
  (SymbolTable.ops.run calls table).1 = (ScopeStack.ops.run calls stack).1
    ∧ Represents (SymbolTable.ops.run calls table).2 (ScopeStack.ops.run calls stack).2
  := by
  induction calls generalizing table stack with
  | nil => exact ⟨rfl, h⟩
  | cons first rest ih =>
    obtain ⟨hanswer, hnext⟩ := h.call first
    obtain ⟨hlater, hlast⟩ := ih hnext
    exact ⟨congrArg₂ List.cons hanswer hlater, hlast⟩

end Represents

/-! ## Used bindings -/

/-- What tells whether a binding is used, whatever its type. -/
def Symbol.mark (s : Symbol) : String × Nat × Bool := (s.name, s.depth, s.isUsed)

namespace SymbolTable

/-- Which bindings of a table are used. -/
def marks (table : SymbolTable) : List (String × Nat × Bool) := table.symbols.map Symbol.mark

/-- Only a lookup marks a binding: any other call forgets bindings or adds one, and keeps what the rest is. -/
theorem marks_call (table : SymbolTable) (c : ScopeCall) :
  (ops.call table c).2.marks <:+ table.marks
    ∨ (∃ s, c = .declare s ∧ (ops.call table c).2.marks = (s.name, table.depth, s.isUsed) :: table.marks)
    ∨ ∃ name, c = .lookup name
  := by
  cases c with
  | leave =>
    refine .inl (List.IsSuffix.map _ ?_)
    change table.leave.2.symbols <:+ table.symbols
    by_cases hdepth : table.depth = 0
    · rw [leave_of_depth_eq_zero table hdepth]
    · rw [(leave_of_depth_ne_zero table hdepth).2.1]
      exact List.dropWhile_suffix _
  | truncate depth =>
    refine .inl (List.IsSuffix.map _ ?_)
    change (table.truncate depth).symbols <:+ table.symbols
    rw [symbols_truncate]
    exact List.dropWhile_suffix _
  | declare s =>
    have hpush : (table.push s).marks = (s.name, table.depth, s.isUsed) :: table.marks := by
      rw [marks, symbols_push]
      rfl
    simp only [ScopeOps.call, ops, declare_eq]
    cases table.peek? s.name with
    | none => exact .inr (.inl ⟨s, rfl, hpush⟩)
    | some bound =>
      cases hinner : table.isInnermost bound with
      | true => exact .inl (by simp [hinner])
      | false => exact .inr (.inl ⟨s, rfl, by simpa [hinner] using hpush⟩)
  | lookup name => exact .inr (.inr ⟨name, rfl⟩)
  | enter | peek name => exact .inl List.suffix_rfl
  | assignTarget name =>
    simp only [ScopeOps.call, ops]
    split <;> exact .inl List.suffix_rfl
  | setGlobalType name type =>
    left
    change (table.setGlobalType name type).marks <:+ table.marks
    rw [marks, symbols_setGlobalType, map_modifyFirst (f := (SymbolChange.setType type).apply) fun _ => rfl]
    exact List.suffix_rfl

end SymbolTable

/--
Over any calls, a new table has the answers of a stack of scopes and goes on to represent it, and whichever
call is next, only a lookup marks a binding as used.
-/
theorem symbolTable_refines (calls : List ScopeCall) :
  (SymbolTable.ops.run calls .empty).1 = (ScopeStack.ops.run calls .new).1
    ∧ Represents (SymbolTable.ops.run calls .empty).2 (ScopeStack.ops.run calls .new).2
    ∧ ∀ next, let table := (SymbolTable.ops.run calls .empty).2
      (SymbolTable.ops.call table next).2.marks <:+ table.marks
        ∨ (∃ s, next = .declare s
          ∧ (SymbolTable.ops.call table next).2.marks = (s.name, table.depth, s.isUsed) :: table.marks)
        ∨ ∃ name, next = .lookup name
  := by
  obtain ⟨hanswers, hrepresents⟩ := Represents.empty.run calls
  exact ⟨hanswers, hrepresents, SymbolTable.marks_call _⟩

end FormCompiler
