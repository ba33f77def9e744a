import FormCompiler.Proofs.Typing.State

/-!
# Changes of symbol tables

What the checker does to a symbol table is one of a few changes: scopes are opened and left, a name is bound
(`push`) or marked as used (`markUsed`), and a global gets another type. The bindings of the outermost scope
(`globals`) stay as they are when scopes are left, by whichever way, and as long as only locals are bound.

Whether a global has been read does not matter to the checker: every change acts on the `view` of a table, in
which the globals are unread. The bindings of inner scopes stand before those of outer ones (`Layered`), so when
only the outermost scope is open, the globals are all that is left.
-/

namespace FormCompiler

/-- A binding as the checker sees it. -/
def Symbol.view (s : Symbol) : Symbol := if s.depth = 0 then s.unread else s

@[simp]
theorem Symbol.depth_view (s : Symbol) :
  s.view.depth = s.depth
  := by
  unfold view
  split <;> rfl

@[simp]
theorem Symbol.name_view (s : Symbol) :
  s.view.name = s.name
  := by
  unfold view
  split <;> rfl

@[simp]
theorem Symbol.unread_view (s : Symbol) :
  s.view.unread = s.unread
  := by
  unfold view
  split <;> rfl

namespace SymbolTable

/-- The bindings of the outermost scope, whether they have been read or not. -/
def globals (table : SymbolTable) : List Symbol := table.bindings.filter (·.depth == 0)

variable (table : SymbolTable)

@[simp]
theorem globals_markUsed (name : String) :
  (table.markUsed name).globals = table.globals
  := by rw [globals, bindings_markUsed, globals]

/-- Bindings that are dropped are not global if they lie above the outermost scope. -/
theorem filter_dropWhile {p : Symbol → Bool} (h : ∀ s, p s = true → s.depth ≠ 0) (symbols : List Symbol) :
  ((symbols.dropWhile p).map Symbol.unread).filter (·.depth == 0)
    = (symbols.map Symbol.unread).filter (·.depth == 0)
  := by
  induction symbols with
  | nil => rfl
  | cons s symbols ih =>
    rw [List.dropWhile_cons]
    split
    · next hs =>
      have hlocal : (s.unread.depth == 0) = false := beq_eq_false_iff_ne.mpr (h s hs)
      rw [ih, List.map_cons, List.filter_cons, hlocal]
      rfl
    · rfl

@[simp]
theorem globals_leave :
  table.leave.2.globals = table.globals
  := by
  by_cases hdepth : table.depth = 0
  · rw [table.leave_of_depth_eq_zero hdepth]
  · rw [globals, bindings, (table.leave_of_depth_ne_zero hdepth).2.1]
    refine filter_dropWhile (fun s hs => ?_) table.symbols
    rw [isInnermost, beq_iff_eq] at hs
    exact hs ▸ hdepth

@[simp]
theorem globals_truncate (depth : Nat) :
  (table.truncate depth).globals = table.globals
  := by
  rw [globals, bindings, symbols_truncate]
  exact filter_dropWhile (fun _ hs => Nat.ne_of_gt (Nat.zero_lt_of_lt (of_decide_eq_true hs))) table.symbols

theorem globals_push (symbol : Symbol) :
  (table.push symbol).globals
    = if table.depth = 0 then { symbol with depth := 0, isUsed := false } :: table.globals else table.globals
  := by
  rw [globals, bindings, symbols_push, List.map_cons, List.filter_cons]
  by_cases h : table.depth = 0
  · rw [h]
    rfl
  · rw [if_neg h, if_neg (by simpa [Symbol.unread] using h)]
    rfl

/-- A table as the checker sees it: the depth of the innermost scope, and the bindings. -/
def view (table : SymbolTable) : Nat × List Symbol := (table.depth, table.symbols.map Symbol.view)

variable {table} {table' : SymbolTable}

theorem depth_eq_of_view (h : table'.view = table.view) :
  table'.depth = table.depth
  := congrArg Prod.fst h

theorem bindings_view (table : SymbolTable) :
  table.view.2.map Symbol.unread = table.bindings
  := by
  rw [bindings, view, List.map_map]
  exact List.map_congr_left fun s _ => s.unread_view

/-- The visible binding of a name is the same, whether it has been read or not. -/
theorem peek?_eq_of_view (h : table'.view = table.view) (name : String) :
  (table'.peek? name).map Symbol.unread = (table.peek? name).map Symbol.unread
  := by
  have hpeek : ∀ table : SymbolTable,
      (table.peek? name).map Symbol.unread = table.bindings.find? (·.name == name) := by
    intro table
    rw [peek?_eq, bindings, List.find?_map]
    rfl
  rw [hpeek, hpeek, ← bindings_view, h, bindings_view]

theorem view_push (h : table'.view = table.view) (symbol : Symbol) :
  (table'.push symbol).view = (table.push symbol).view
  := by
  obtain ⟨hdepth, hsymbols⟩ := Prod.mk.inj h
  rw [view, view, symbols_push, symbols_push, depth_push, depth_push, List.map_cons, List.map_cons, hdepth, hsymbols]

theorem view_enter (h : table'.view = table.view) :
  table'.enter.view = table.enter.view
  := by
  obtain ⟨hdepth, hsymbols⟩ := Prod.mk.inj h
  exact Prod.ext (by rw [view, view, depth_enter, depth_enter, hdepth]) hsymbols

/-- What is seen of changed bindings depends on what is seen of the bindings. -/
theorem view_modifyFirst {p : Symbol → Bool} {f : Symbol → Symbol} (hp : ∀ s, p s.view = p s)
    (hf : ∀ s, (f s.view).view = (f s).view) (symbols : List Symbol) :
  (modifyFirst p f (symbols.map Symbol.view)).map Symbol.view = (modifyFirst p f symbols).map Symbol.view
  := by
  have hidempotent : ∀ s : Symbol, s.view.view = s.view := by
    intro s
    by_cases hs : s.depth = 0 <;> simp [Symbol.view, Symbol.unread, hs]
  induction symbols with
  | nil => rfl
  | cons s symbols ih =>
    rw [List.map_cons, modifyFirst, modifyFirst, hp]
    split
    · rw [List.map_cons, List.map_cons, hf, List.map_map]
      exact congrArg _ (List.map_congr_left fun s _ => hidempotent s)
    · rw [List.map_cons, List.map_cons, hidempotent, ih]

section

variable (h : table'.view = table.view)

include h

theorem view_markUsed (name : String) :
  (table'.markUsed name).view = (table.markUsed name).view
  := by
  obtain ⟨hdepth, hsymbols⟩ := Prod.mk.inj h
  have hused : ∀ s : Symbol, (SymbolChange.markUsed.apply s.view).view = (SymbolChange.markUsed.apply s).view := by
    intro s
    by_cases hs : s.depth = 0 <;> simp [SymbolChange.markUsed, Symbol.view, Symbol.unread, hs]
  rw [view, view, depth_markUsed, depth_markUsed, symbols_markUsed, symbols_markUsed, hdepth,
    ← view_modifyFirst (fun s => by rw [s.name_view]) hused, hsymbols,
    view_modifyFirst (fun s => by rw [s.name_view]) hused]

theorem view_setGlobalType (name : String) (type : Ty) :
  (table'.setGlobalType name type).view = (table.setGlobalType name type).view
  := by
  obtain ⟨hdepth, hsymbols⟩ := Prod.mk.inj h
  have hset : ∀ s : Symbol,
      ((SymbolChange.setType type).apply s.view).view = ((SymbolChange.setType type).apply s).view := by
    intro s
    by_cases hs : s.depth = 0 <;> simp [SymbolChange.setType, Symbol.view, Symbol.unread, hs]
  rw [view, view, depth_setGlobalType, depth_setGlobalType, symbols_setGlobalType, symbols_setGlobalType, hdepth,
    ← view_modifyFirst (fun s => by rw [s.depth_view, s.name_view]) hset, hsymbols,
    view_modifyFirst (fun s => by rw [s.depth_view, s.name_view]) hset]

theorem view_truncate (depth : Nat) :
  (table'.truncate depth).view = (table.truncate depth).view
  := by
  obtain ⟨hdepth, hsymbols⟩ := Prod.mk.inj h
  have hdrop : ∀ symbols : List Symbol, (symbols.dropWhile fun s => depth < s.depth).map Symbol.view
      = (symbols.map Symbol.view).dropWhile fun s => depth < s.depth := by
    intro symbols
    rw [List.dropWhile_map]
    simp [Function.comp_def]
  rw [view, view, depth_truncate, depth_truncate, symbols_truncate, symbols_truncate, hdrop, hdrop, hdepth, hsymbols]

/-- Leaving a scope gives back the same locals, read or not, and leaves the same bindings to see. -/
theorem leave_eq_of_view :
  table'.leave.1 = table.leave.1 ∧ table'.leave.2.view = table.leave.2.view
  := by
  obtain ⟨hdepth, hsymbols⟩ := Prod.mk.inj h
  by_cases hzero : table.depth = 0
  · rw [table'.leave_of_depth_eq_zero (hdepth.trans hzero), table.leave_of_depth_eq_zero hzero]
    exact ⟨rfl, h⟩
  · have hleave : ∀ t : SymbolTable, t.depth = table.depth →
        t.leave.1 = (t.symbols.map Symbol.view).takeWhile (·.depth == table.depth)
          ∧ t.leave.2.view = (table.depth - 1, (t.symbols.map Symbol.view).dropWhile (·.depth == table.depth)) := by
      intro t ht
      obtain ⟨hreleased, hrest, hleft⟩ := t.leave_of_depth_ne_zero (ht ▸ hzero)
      have hinnermost : (fun s : Symbol => s.depth == table.depth) ∘ Symbol.view = t.isInnermost := by
        funext s
        simp [isInnermost, ht]
      rw [view, hreleased, hrest, hleft, ht, List.takeWhile_map, List.dropWhile_map, hinnermost]
      refine ⟨((List.map_congr_left fun s hs => ?_).trans (List.map_id _)).symm, rfl⟩
      have hs : s.depth = t.depth := beq_iff_eq.mp (List.all_eq_true.mp List.all_takeWhile s hs)
      rw [Symbol.view, if_neg (by omega), id]
    obtain ⟨hreleased', hview'⟩ := hleave table' hdepth
    obtain ⟨hreleased, hview⟩ := hleave table rfl
    exact ⟨by rw [hreleased', hreleased, hsymbols], by rw [hview', hview, hsymbols]⟩

end

/-- If only the outermost scope is open, the globals are all that is seen. -/
theorem view_eq (hdepth : table.depth = 0) :
  table.view = (0, table.globals)
  := by
  have hglobal : ∀ s ∈ table.symbols, s.depth = 0 :=
    fun s hs => Nat.le_zero.mp (hdepth ▸ table.depth_le_of_mem_symbols hs)
  have hview : table.symbols.map Symbol.view = table.bindings :=
    List.map_congr_left fun s hs => by rw [Symbol.view, if_pos (hglobal s hs)]
  have hall : table.bindings.filter (·.depth == 0) = table.bindings := by
    refine List.filter_eq_self.mpr fun s hs => ?_
    obtain ⟨bound, hbound, rfl⟩ := List.mem_map.mp hs
    exact beq_iff_eq.mpr (hglobal bound hbound)
  rw [view, hdepth, hview, globals, hall]

end SymbolTable

end FormCompiler
