import FormCompiler.Scope.Symbols
import Mathlib

/-!
# The bindings of a table

All bindings of a table stand in one list (`SymbolTable.symbols`), the latest first. The bindings of inner scopes
stand before those of outer ones, so the visible binding of a name is the first one in the list that has it, and
scopes are left by dropping bindings from the front. The index of a frame always has the place of the latest
binding of each name.
-/

namespace FormCompiler

variable {name : String} {s : Symbol}

/-! ## Indices -/

namespace Indexes

variable {index : List (String × Nat)} {names : List String}

/-- A name that has no place is not there. -/
theorem not_mem (h : Indexes index names) (hlookup : index.lookup name = none) :
  name ∉ names
  := by
  intro hname
  obtain ⟨after, before, hnames, hfirst⟩ := List.eq_append_cons_of_mem (List.mem_reverse.mpr hname)
  have hnames : names = before.reverse ++ name :: after.reverse := by
    rw [← List.reverse_reverse names, hnames]
    simp
  have hplace : index.lookup name = some before.length := by
    rw [h name before.length, hnames]
    refine ⟨by simp, fun j hj hlater => hfirst ?_⟩
    rw [List.getElem?_append_right (by simpa using hj.le), List.getElem?_cons,
      if_neg (by simpa using Nat.sub_ne_zero_of_lt hj)] at hlater
    exact List.mem_reverse.mp (List.mem_of_getElem? hlater)
  cases hlookup.symm.trans hplace

end Indexes

/-! ## Frames -/

namespace SymbolFrame

variable (frame : SymbolFrame)

/-- A name that is bound in a frame has its latest binding where the index says. -/
theorem exists_split {i : Nat} (h : frame.index.lookup name = some i) :
  ∃ before s after, frame.symbols = before ++ s :: after ∧ before.length = i ∧ s.name = name
    ∧ ∀ later ∈ after, later.name ≠ name
  := by
  obtain ⟨hplace, hlast⟩ := (frame.indexed name i).mp h
  rw [List.getElem?_map, Option.map_eq_some_iff] at hplace
  obtain ⟨s, hs, hname⟩ := hplace
  obtain ⟨hi, hs⟩ := List.getElem?_eq_some_iff.mp hs
  refine ⟨frame.symbols.take i, s, frame.symbols.drop (i + 1), ?_, List.length_take_of_le hi.le, hname, ?_⟩
  · rw [← hs, List.getElem_cons_drop, List.take_append_drop]
  · intro later hlater heq
    obtain ⟨j, hj⟩ := List.mem_iff_getElem?.mp hlater
    rw [List.getElem?_drop] at hj
    refine hlast (i + 1 + j) (by omega) ?_
    rw [List.getElem?_map, hj, Option.map_some, heq]

theorem forall_name_ne (h : frame.index.lookup name = none) :
  ∀ s ∈ frame.symbols, s.name ≠ name
  := by
  intro s hs hname
  exact frame.indexed.not_mem h (hname ▸ List.mem_map_of_mem hs)

/-- A name stands for its latest binding. -/
theorem find?_eq (name : String) :
  frame.find? name = frame.symbols.reverse.find? (·.name == name)
  := by
  rw [find?]
  cases hlookup : frame.index.lookup name with
  | none =>
    refine (List.find?_eq_none.mpr fun s hs => ?_).symm
    simpa using frame.forall_name_ne hlookup s (List.mem_reverse.mp hs)
  | some i =>
    obtain ⟨before, s, after, hsymbols, rfl, rfl, hlater⟩ := frame.exists_split hlookup
    have hnone : after.reverse.find? (·.name == s.name) = none := by
      refine List.find?_eq_none.mpr fun later hmem => ?_
      simpa using hlater later (List.mem_reverse.mp hmem)
    rw [Option.bind_some, hsymbols]
    simp [hnone]

end SymbolFrame

/-! ## Changed bindings -/

namespace SymbolTable

/-- Changes the first binding that satisfies a condition. -/
def modifyFirst (p : Symbol → Bool) (f : Symbol → Symbol) : List Symbol → List Symbol
  | [] => []
  | s :: symbols => if p s then f s :: symbols else s :: modifyFirst p f symbols

variable {p : Symbol → Bool} {f : Symbol → Symbol}

theorem modifyFirst_append_of_neg {front : List Symbol} (h : ∀ s ∈ front, p s = false) (rest : List Symbol) :
  modifyFirst p f (front ++ rest) = front ++ modifyFirst p f rest
  := by
  induction front with
  | nil => rfl
  | cons s front ih =>
    obtain ⟨hs, hfront⟩ := List.forall_mem_cons.mp h
    rw [List.cons_append, modifyFirst, hs, ih hfront]
    rfl

/-- The first binding that satisfies a condition stands behind some that do not. -/
theorem modifyFirst_append_cons {front : List Symbol} (h : ∀ s ∈ front, p s = false) (hs : p s = true)
    (rest : List Symbol) :
  modifyFirst p f (front ++ s :: rest) = front ++ f s :: rest
  := by rw [modifyFirst_append_of_neg h, modifyFirst, if_pos hs]

/-- What a change keeps of every binding is kept of all bindings. -/
theorem map_modifyFirst {α : Type} {g : Symbol → α} (h : ∀ s, g (f s) = g s) (p : Symbol → Bool)
    (symbols : List Symbol) :
  (modifyFirst p f symbols).map g = symbols.map g
  := by
  induction symbols with
  | nil => rfl
  | cons s symbols ih =>
    rw [modifyFirst]
    split
    · rw [List.map_cons, List.map_cons, h]
    · rw [List.map_cons, List.map_cons, ih]

end SymbolTable

namespace SymbolFrame

open SymbolTable

theorem reverse_modify (frame : SymbolFrame) {i : Nat} (h : frame.index.lookup name = some i)
    {p : Symbol → Bool} (change : SymbolChange) (hp : ∀ s ∈ frame.symbols, p s = (s.name == name)) (rest : List Symbol) :
  modifyFirst p change.apply (frame.symbols.reverse ++ rest)
    = (frame.modify i change).symbols.reverse ++ rest
  := by
  obtain ⟨before, s, after, hsymbols, rfl, rfl, hlater⟩ := frame.exists_split h
  rw [hsymbols] at hp
  have hfront : ∀ later ∈ after.reverse, p later = false := by
    intro later hmem
    rw [List.mem_reverse] at hmem
    rw [hp later (by simp [hmem])]
    simpa using hlater later hmem
  have hmodify : (frame.modify before.length change).symbols = before ++ change.apply s :: after := by
    change frame.symbols.modify before.length change.apply = _
    rw [hsymbols]
    exact List.modifyTailIdx_add _ 0 before _
  rw [hmodify, hsymbols, List.reverse_append, List.reverse_cons, List.append_assoc, List.append_assoc,
    List.singleton_append, modifyFirst_append_cons hfront (by rw [hp s (by simp)]; simp)]
  simp

/-! ## The bindings of frames -/

/-- The bindings in some frames, the latest first. -/
def flat (frames : List SymbolFrame) : List Symbol := frames.flatMap fun frame => frame.symbols.reverse

section Flat

variable {frames outer : List SymbolFrame} {frame : SymbolFrame}

theorem flat_cons (frame : SymbolFrame) (outer : List SymbolFrame) :
  flat (frame :: outer) = frame.symbols.reverse ++ flat outer
  := List.flatMap_cons

theorem depth_lt_of_mem_flat (h : IsStamped frames) (hs : s ∈ flat frames) :
  s.depth < frames.length
  := by
  induction frames with
  | nil => cases hs
  | cons frame outer ih =>
    rw [flat_cons, List.mem_append, List.mem_reverse] at hs
    rw [List.length_cons]
    rcases hs with hs | hs
    · exact Nat.lt_succ_of_le (h.1 s hs).le
    · exact Nat.lt_succ_of_lt (ih h.2 hs)

theorem findSome?_eq (frames : List SymbolFrame) (name : String) :
  frames.findSome? (·.find? name) = (flat frames).find? (·.name == name)
  := by
  induction frames with
  | nil => rfl
  | cons frame outer ih =>
    rw [List.findSome?_cons, flat_cons, List.find?_append, ← frame.find?_eq, ← ih]
    cases frame.find? name <;> rfl

/-- The place of a name has the binding that is found first. -/
theorem position?_eq (frames : List SymbolFrame) (name : String) :
  ((SymbolTable.position? name frames).bind fun (f, i) => frames[f]?.bind (·.symbols[i]?))
    = frames.findSome? (·.find? name)
  := by
  induction frames with
  | nil => rfl
  | cons frame outer ih =>
    rw [List.findSome?_cons, SymbolTable.position?, SymbolFrame.find?]
    cases hlookup : frame.index.lookup name with
    | none =>
      rw [Option.bind_none, ← ih]
      cases SymbolTable.position? name outer <;> rfl
    | some i =>
      obtain ⟨before, s, after, hsymbols, rfl, -⟩ := frame.exists_split hlookup
      simp [hsymbols]

theorem flat_modify {f i : Nat} (h : SymbolTable.position? name frames = some (f, i)) (change : SymbolChange) :
  flat (frames.modify f (·.modify i change)) = modifyFirst (·.name == name) change.apply (flat frames)
  := by
  induction frames generalizing f with
  | nil => cases h
  | cons frame outer ih =>
    rw [SymbolTable.position?] at h
    cases hlookup : frame.index.lookup name with
    | some j =>
      rw [hlookup] at h
      obtain ⟨rfl, rfl⟩ := Prod.mk.inj (Option.some.inj h)
      rw [List.modify_zero_cons, flat_cons, flat_cons, frame.reverse_modify hlookup change fun _ _ => rfl]
    | none =>
      rw [hlookup] at h
      obtain ⟨⟨f, i⟩, hplace, hsame⟩ := Option.map_eq_some_iff.mp h
      obtain ⟨rfl, rfl⟩ := Prod.mk.inj hsame
      have hframe : ∀ s ∈ frame.symbols.reverse, (s.name == name) = false := by
        intro s hs
        simpa using frame.forall_name_ne hlookup s (List.mem_reverse.mp hs)
      rw [List.modify_succ_cons, flat_cons, flat_cons, modifyFirst_append_of_neg hframe, ih hplace]

/-- The bindings of the outermost scope are those at depth zero. -/
theorem flat_modify_global (h : IsStamped frames) (hne : frames ≠ []) {i : Nat}
    (hlookup : (frames.getLast hne).index.lookup name = some i) (change : SymbolChange) :
  flat (frames.modify (frames.length - 1) (·.modify i change))
    = modifyFirst (fun s => s.depth == 0 && s.name == name) change.apply (flat frames)
  := by
  induction frames with
  | nil => exact absurd rfl hne
  | cons frame outer ih =>
    obtain ⟨hdepth, houter⟩ := h
    cases outer with
    | nil =>
      have hglobal : ∀ s ∈ frame.symbols, (s.depth == 0 && s.name == name) = (s.name == name) := by
        intro s hs
        simp [hdepth s hs]
      have hmodify := frame.reverse_modify hlookup change hglobal []
      exact hmodify.symm
    | cons next outer =>
      have hinner : ∀ s ∈ frame.symbols.reverse, (s.depth == 0 && s.name == name) = false := by
        intro s hs
        simp [hdepth s (List.mem_reverse.mp hs)]
      have hglobal := ih houter (List.cons_ne_nil _ _) (by rwa [List.getLast_cons] at hlookup)
      rw [flat_cons frame, modifyFirst_append_of_neg hinner, ← hglobal]
      rfl

/-- If the outermost scope does not have a name, no binding is at depth zero and has it. -/
theorem modifyFirst_flat_of_none (h : IsStamped frames) (hne : frames ≠ [])
    (hlookup : (frames.getLast hne).index.lookup name = none) (f : Symbol → Symbol) :
  modifyFirst (fun s => s.depth == 0 && s.name == name) f (flat frames) = flat frames
  := by
  have hother : ∀ s ∈ flat frames, (s.depth == 0 && s.name == name) = false := by
    induction frames with
    | nil => exact absurd rfl hne
    | cons frame outer ih =>
      rw [flat_cons, List.forall_mem_append]
      cases outer with
      | nil =>
        refine ⟨fun s hs => ?_, List.forall_mem_nil _⟩
        simp [frame.forall_name_ne hlookup s (List.mem_reverse.mp hs)]
      | cons next outer =>
        refine ⟨fun s hs => ?_, ih h.2 (List.cons_ne_nil _ _) (by rwa [List.getLast_cons] at hlookup)⟩
        simp [h.1 s (List.mem_reverse.mp hs)]
  simpa [modifyFirst] using modifyFirst_append_of_neg (f := f) hother []

/-- The scopes that are too deep stand in front. -/
theorem flat_drop (h : IsStamped frames) (depth : Nat) :
  flat (frames.drop (frames.length - (depth + 1))) = (flat frames).dropWhile fun s => depth < s.depth
  := by
  induction frames with
  | nil => rw [List.drop_nil, flat, List.flatMap_nil, List.dropWhile_nil]
  | cons frame outer ih =>
    by_cases hdeep : depth < outer.length
    · have hlength : (frame :: outer).length - (depth + 1) = outer.length - (depth + 1) + 1 := by
        rw [List.length_cons]
        omega
      have hframe : ∀ s ∈ frame.symbols.reverse, decide (depth < s.depth) = true := by
        intro s hs
        rw [h.1 s (List.mem_reverse.mp hs)]
        simpa using hdeep
      rw [flat_cons, List.dropWhile_append_of_pos hframe, ← ih h.2, hlength, List.drop_succ_cons]
    · have hlength : (frame :: outer).length - (depth + 1) = 0 := by
        rw [List.length_cons]
        omega
      symm
      rw [hlength, List.drop_zero, List.dropWhile_eq_self_iff]
      intro hpos hhead
      have hlt := depth_lt_of_mem_flat h (List.getElem_mem hpos)
      simp only [List.length_cons, decide_eq_true_eq] at hlt hhead
      omega

end Flat

end SymbolFrame

/-! ## The bindings of a table -/

namespace SymbolTable

open SymbolFrame

variable (table : SymbolTable)

/-- All bindings, the latest first. -/
def symbols : List Symbol := flat table.frames

/-- Whether a binding is of the innermost scope. -/
def isInnermost (s : Symbol) : Bool := s.depth == table.depth

/-- Marks the visible binding of a name as used. -/
def markUsed (name : String) : SymbolTable :=
  match position? name table.frames with
  | some (f, i) => table.modify f i .markUsed
  | none => table

theorem depth_modify (f i : Nat) (change : SymbolChange) :
  (table.modify f i change).depth = table.depth
  := by rw [depth, modify, List.length_modify, depth]

theorem peek?_eq (name : String) :
  table.peek? name = table.symbols.find? (·.name == name)
  := (position?_eq _ _).trans (findSome?_eq _ _)

@[simp]
theorem symbols_empty :
  empty.symbols = []
  := rfl

variable {table} in
theorem of_peek? (h : table.peek? name = some s) :
  s ∈ table.symbols ∧ s.name = name
  := by
  rw [peek?_eq] at h
  exact ⟨List.mem_of_find?_eq_some h, by simpa using List.find?_some h⟩

theorem depth_enter :
  table.enter.depth = table.depth + 1
  := by
  have hpos := List.length_pos_iff.mpr table.ne_nil
  exact (Nat.sub_add_cancel hpos).symm

theorem depth_le_of_mem_symbols (hs : s ∈ table.symbols) :
  s.depth ≤ table.depth
  := Nat.le_sub_one_of_lt (depth_lt_of_mem_flat table.stamped hs)

/-! ### Declarations -/

theorem depth_push (s : Symbol) :
  (table.push s).depth = table.depth
  := by
  obtain ⟨_ | ⟨frame, outer⟩, hne, hstamped⟩ := table
  · exact absurd rfl hne
  · rfl

theorem symbols_push (s : Symbol) :
  (table.push s).symbols = { s with depth := table.depth } :: table.symbols
  := by
  obtain ⟨_ | ⟨frame, outer⟩, hne, hstamped⟩ := table
  · exact absurd rfl hne
  · rw [push, symbols, symbols, flat_cons, flat_cons, SymbolFrame.add, List.reverse_concat, List.cons_append]
    rfl

/-- A name can be bound unless its visible binding is of the innermost scope. -/
theorem declare_eq (s : Symbol) :
  table.declare s = match table.peek? s.name with
    | none => .ok (none, table.push s)
    | some bound =>
      if table.isInnermost bound then .error (.redeclared bound.span) else .ok (some bound.span, table.push s)
  := by
  rw [peek?_eq]
  obtain ⟨_ | ⟨frame, outer⟩, hne, hstamped⟩ := table
  · exact absurd rfl hne
  · have hfind : (symbols ⟨frame :: outer, hne, hstamped⟩).find? (·.name == s.name)
        = (frame.find? s.name).or (outer.findSome? (·.find? s.name)) := by
      rw [symbols, flat_cons, List.find?_append, findSome?_eq, frame.find?_eq]
    rw [hfind, declare]
    dsimp only
    cases hframe : frame.find? s.name with
    | some bound =>
      rw [frame.find?_eq] at hframe
      have hdepth := hstamped.1 bound (List.mem_reverse.mp (List.mem_of_find?_eq_some hframe))
      have hinner : isInnermost ⟨frame :: outer, hne, hstamped⟩ bound = true := beq_iff_eq.mpr hdepth
      rw [Option.some_or]
      exact (if_pos hinner).symm
    | none =>
      rw [Option.none_or]
      cases houter : outer.findSome? (·.find? s.name) with
      | none => rfl
      | some bound =>
        rw [findSome?_eq] at houter
        have hlt := depth_lt_of_mem_flat hstamped.2 (List.mem_of_find?_eq_some houter)
        have hinner : isInnermost ⟨frame :: outer, hne, hstamped⟩ bound = false := beq_false_of_ne hlt.ne
        dsimp only
        rw [hinner]
        rfl

/-! ### Uses -/

theorem lookup_eq (name : String) :
  table.lookup name = match table.peek? name with
    | some s => .ok ({ s with isUsed := true }, table.markUsed name)
    | none => .error .unbound
  := by
  rw [lookup, markUsed]
  cases hplace : position? name table.frames with
  | none =>
    have hpeek : table.peek? name = none := by rw [peek?, hplace, Option.bind_none]
    rw [hpeek]
  | some place => cases table.peek? name <;> rfl

theorem symbols_markUsed (name : String) :
  (table.markUsed name).symbols = modifyFirst (·.name == name) SymbolChange.markUsed.apply table.symbols
  := by
  rw [markUsed]
  cases hplace : position? name table.frames with
  | some place => exact flat_modify hplace _
  | none =>
    have hpeek : table.symbols.find? (·.name == name) = none := by
      rw [← peek?_eq, peek?, hplace, Option.bind_none]
    have hother : ∀ s ∈ table.symbols, (s.name == name) = false := by
      simpa [List.find?_eq_none] using hpeek
    simpa [modifyFirst] using (modifyFirst_append_of_neg (f := SymbolChange.markUsed.apply) hother []).symm

theorem depth_markUsed (name : String) :
  (table.markUsed name).depth = table.depth
  := by
  rw [markUsed]
  split
  · exact table.depth_modify _ _ _
  · rfl

theorem symbols_setGlobalType (name : String) (type : Ty) :
  (table.setGlobalType name type).symbols
    = modifyFirst (fun s => s.depth == 0 && s.name == name) (SymbolChange.setType type).apply table.symbols
  := by
  rw [setGlobalType]
  split
  · next i hlookup => exact flat_modify_global table.stamped table.ne_nil hlookup _
  · next hlookup => exact (modifyFirst_flat_of_none table.stamped table.ne_nil hlookup _).symm

theorem depth_setGlobalType (name : String) (type : Ty) :
  (table.setGlobalType name type).depth = table.depth
  := by
  rw [setGlobalType]
  split
  · exact table.depth_modify _ _ _
  · rfl

/-! ### Scopes that are left -/

theorem leave_of_depth_eq_zero (h : table.depth = 0) :
  table.leave = ([], table)
  := by
  obtain ⟨_ | ⟨frame, _ | ⟨next, outer⟩⟩, hne, hstamped⟩ := table
  · rfl
  · rfl
  · cases h

/-- The bindings of the innermost scope stand in front. -/
theorem leave_of_depth_ne_zero (h : table.depth ≠ 0) :
  table.leave.1 = table.symbols.takeWhile table.isInnermost
    ∧ table.leave.2.symbols = table.symbols.dropWhile table.isInnermost
    ∧ table.leave.2.depth = table.depth - 1
  := by
  obtain ⟨_ | ⟨frame, _ | ⟨next, outer⟩⟩, hne, hstamped⟩ := table
  · exact absurd rfl h
  · exact absurd rfl h
  · have hframe : ∀ s ∈ frame.symbols.reverse, (s.depth == (next :: outer).length) = true := by
      intro s hs
      simpa using hstamped.1 s (List.mem_reverse.mp hs)
    have houter : ∀ s ∈ flat (next :: outer), (s.depth == (next :: outer).length) = false := by
      intro s hs
      simpa using (depth_lt_of_mem_flat hstamped.2 hs).ne
    refine ⟨?_, ?_, rfl⟩
    · change _ = (flat (frame :: next :: outer)).takeWhile (·.depth == (next :: outer).length)
      rw [flat_cons, List.takeWhile_append_of_pos hframe]
      cases hflat : flat (next :: outer) with
      | nil => simp [leave]
      | cons s rest =>
        rw [List.takeWhile_cons, houter s (by simp [hflat])]
        simp [leave]
    · change flat (next :: outer) = (flat (frame :: next :: outer)).dropWhile (·.depth == (next :: outer).length)
      rw [flat_cons frame, List.dropWhile_append_of_pos hframe]
      cases hflat : flat (next :: outer) with
      | nil => rfl
      | cons s rest =>
        rw [List.dropWhile_cons, houter s (by simp [hflat])]
        rfl

/-- No scope is left if none is too deep. -/
theorem truncate_of_le {depth : Nat} (h : table.depth ≤ depth) :
  table.truncate depth = table
  := by
  have hcount : table.frames.length - (depth + 1) = 0 := by
    rw [SymbolTable.depth] at h
    omega
  simp only [truncate, hcount, List.drop_zero]

theorem symbols_truncate (depth : Nat) :
  (table.truncate depth).symbols = table.symbols.dropWhile fun s => depth < s.depth
  := flat_drop table.stamped depth

theorem depth_truncate (depth : Nat) :
  (table.truncate depth).depth = min depth table.depth
  := by
  have hpos := List.length_pos_iff.mpr table.ne_nil
  rw [SymbolTable.depth, truncate, List.length_drop, SymbolTable.depth]
  omega

end SymbolTable

end FormCompiler
