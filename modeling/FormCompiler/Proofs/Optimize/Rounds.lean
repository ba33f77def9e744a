import FormCompiler.Optimize.Unroll
import FormCompiler.Proofs.Flow.Lockstep
import FormCompiler.Proofs.Flow.Rename

/-!
# Copied instructions

Copies of instructions define variables of their own, and share the slots. So they are well-typed and
read what is defined, and they do to the store what the instructions do: when a copy reads a variable
that has been copied before, it reads the copy. `Copies` says this of any number of copies.
-/

namespace FormCompiler.Flow

variable {calls : Caller} {type type' : VarId → ValueType}

/-! ## Definitions of other variables -/

/-- What an instruction computes depends on the type, but not on the number, of what it defines. -/
theorem Instr.act_mapDef {W : World} {vars : VarId → Val} {store : Store} {rename : VarId → VarId} {i : Instr}
    (htype : ∀ v, i.def? = some v → type' (rename v) = type v) :
  (i.mapDef rename).act W calls type' vars store = i.act W calls type vars store
  := by
  cases i with
  | set dst value | loadLanes dst slot start | binaryLanes dst op lhs rhs =>
    simp only [Instr.mapDef, Instr.act, htype dst rfl]
  | call | load | store | loadGlobal | loadElement | storeElement | boundsCheck | makeArray
  | makeTuple | extract | alloc | free | release | storeLanes => rfl

/-- Two instructions that compute the same and do the same to the store. -/
theorem Instr.agree_run_of_act {W : World} {i i' : Instr} {s t : State}
    (hact : i.act W calls type s.vars s.store = i'.act W calls type' t.vars t.store) :
  Agree (fun s' t' => ∃ x after, s' = ⟨setVar s.vars i.def? x, after⟩
    ∧ t' = ⟨setVar t.vars i'.def? x, after⟩) (i.run W calls type s) (i'.run W calls type' t)
  := by
  unfold Instr.run
  rw [hact]
  apply (agree_eq.mpr rfl).bind
  rintro ⟨x, after⟩ _ rfl
  exact ⟨_, rfl, x, after, rfl, rfl⟩

/-- Instructions keep the variables that they do not define. -/
theorem vars_of_runAll {W : World} {instrs : List Instr} {s s' : State} (hrun : runAll W calls type instrs s = .ok s')
    {v : VarId} (hv : v ∉ instrs.filterMap Instr.def?) :
  s'.vars v = s.vars v
  := by
  induction instrs generalizing s with
  | nil =>
    cases hrun
    rfl
  | cons i rest ih =>
    rw [runAll_cons] at hrun
    obtain ⟨s₁, hfirst, hrest⟩ := bind_eq_ok.mp hrun
    obtain ⟨x, after, -, rfl⟩ := Instr.run_eq_ok.mp hfirst
    simp only [List.mem_filterMap, List.mem_cons, not_exists, not_and, forall_eq_or_imp] at hv
    have hlater : v ∉ rest.filterMap Instr.def? := by
      simpa [List.mem_filterMap] using hv.2
    exact (ih hrest hlater).trans (setVar_of_ne hv.1)

/-! ## One copy -/

namespace Unroll

/-- What stands for a variable in copies. -/
def rename (renamed : List (VarId × VarId)) (v : VarId) : VarId := (renamed.lookup v).getD v

theorem rename_cons (renamed : List (VarId × VarId)) (dst fresh v : VarId) :
  rename ((dst, fresh) :: renamed) v = if v = dst then fresh else rename renamed v
  := by
  unfold rename
  rw [List.lookup_cons]
  split
  · next heq => rw [if_pos (beq_iff_eq.mp heq), Option.getD_some]
  · next hne => rw [if_neg (by simpa using hne)]

/-- The instructions of lines. -/
def instrs (lines : List Line) : List Instr := lines.map (·.instr)

theorem instrs_cons (line : Line) (lines : List Line) :
  instrs (line :: lines) = line.instr :: instrs lines
  := rfl

section

variable {f : Function} {renamed : List (VarId × VarId)} {line : Line} {rest : List Line} {dst : VarId}

theorem copyLines_none (hdef : line.instr.def? = none) :
  copyLines renamed (line :: rest) f
    = ({ line with instr := line.instr.mapUses (rename renamed) } :: (copyLines renamed rest f).1,
      (copyLines renamed rest f).2)
  := by
  have hnone : (line.instr.mapUses (rename renamed)).def? = none := by rw [Instr.def?_mapUses, hdef]
  unfold rename at hnone ⊢
  rw [copyLines]
  simp only
  split
  · rfl
  · next hsome =>
    rw [hnone] at hsome
    cases hsome

theorem copyLines_some (hdef : line.instr.def? = some dst) :
  copyLines renamed (line :: rest) f
    = ({ line with instr := (line.instr.mapUses (rename renamed)).mapDef fun _ => f.varTypes.length }
        :: (copyLines ((dst, f.varTypes.length) :: renamed) rest (f.freshVar (f.varType dst)).2).1,
      (copyLines ((dst, f.varTypes.length) :: renamed) rest (f.freshVar (f.varType dst)).2).2)
  := by
  have hsome : (line.instr.mapUses (rename renamed)).def? = some dst := by rw [Instr.def?_mapUses, hdef]
  unfold rename at hsome ⊢
  rw [copyLines]
  simp only
  split
  · next hnone =>
    rw [hsome] at hnone
    cases hnone
  · next dst' hsome' =>
    rw [hsome] at hsome'
    cases hsome'
    rfl

end

/-- The function only gets more variables, and these are what the copies define. -/
theorem copyLines_frame (renamed : List (VarId × VarId)) (lines : List Line) (f : Function) :
  ∃ more, (copyLines renamed lines f).2 = { f with varTypes := f.varTypes ++ more }
    ∧ (instrs (copyLines renamed lines f).1).filterMap Instr.def?
      = List.range' f.varTypes.length more.length
  := by
  induction lines generalizing renamed f with
  | nil => exact ⟨[], by simp [copyLines], rfl⟩
  | cons line rest ih =>
    cases hdef : line.instr.def? with
    | none =>
      obtain ⟨more, hframe, hdefs⟩ := ih renamed f
      rw [copyLines_none hdef]
      refine ⟨more, hframe, ?_⟩
      simpa [instrs, hdef] using hdefs
    | some dst =>
      obtain ⟨more, hframe, hdefs⟩ :=
        ih ((dst, f.varTypes.length) :: renamed) (f.freshVar (f.varType dst)).2
      rw [copyLines_some hdef]
      refine ⟨f.varType dst :: more, ?_, ?_⟩
      · rw [hframe]
        simp [Function.freshVar]
      · simp only [instrs, Function.freshVar, List.length_append, List.length_singleton] at hdefs
        simp only [instrs, List.map_cons, List.filterMap_cons, Instr.def?_mapDef, Instr.def?_mapUses,
          hdef, Option.map_some, Function.freshVar, hdefs, List.length_cons, List.range'_succ]

section

variable {base : Function} {lines : List Line}
variable {renamed : List (VarId × VarId)}

theorem extends_copyLines (renamed : List (VarId × VarId)) (lines : List Line) (f : Function) :
  f.Extends (copyLines renamed lines f).2
  := by
  obtain ⟨more, hframe, -⟩ := copyLines_frame renamed lines f
  rw [hframe]
  exact ⟨rfl, List.prefix_append _ _⟩

theorem extends_freshVar (f : Function) (type : ValueType) :
  f.Extends (f.freshVar type).2
  := ⟨rfl, List.prefix_append _ _⟩

/-- Copies read what the instructions read, or other copies. -/
theorem uses_copyLines {m : Nat} (hm : m ≤ f.varTypes.length)
    (hrenamed : ∀ v, rename renamed v = v ∨ m ≤ rename renamed v) :
  ∀ i ∈ instrs (copyLines renamed lines f).1, ∀ v ∈ i.uses,
    m ≤ v ∨ ∃ i ∈ instrs lines, v ∈ i.uses
  := by
  induction lines generalizing renamed f with
  | nil => simp [copyLines, instrs]
  | cons line rest ih =>
    have hfirst : ∀ v ∈ line.instr.uses.map (rename renamed),
        m ≤ v ∨ ∃ i ∈ instrs (line :: rest), v ∈ i.uses := by
      intro v hv
      obtain ⟨u, hu, rfl⟩ := List.mem_map.mp hv
      rcases hrenamed u with heq | hle
      · rw [heq]
        exact .inr ⟨line.instr, by simp [instrs], hu⟩
      · exact .inl hle
    cases hdef : line.instr.def? with
    | none =>
      rw [copyLines_none hdef]
      intro i hi v hv
      rcases List.mem_cons.mp hi with rfl | hi
      · exact hfirst v (by simpa using hv)
      · refine (ih hm hrenamed i hi v hv).imp_right ?_
        rintro ⟨i', hi', hv'⟩
        exact ⟨i', List.mem_cons_of_mem _ hi', hv'⟩
    | some dst =>
      rw [copyLines_some hdef]
      intro i hi v hv
      rcases List.mem_cons.mp hi with rfl | hi
      · exact hfirst v (by simpa using hv)
      · refine (ih ?_ ?_ i hi v hv).imp_right ?_
        · exact hm.trans (by simp [Function.freshVar])
        · intro u
          rw [rename_cons]
          split
          · exact .inr hm
          · exact hrenamed u
        · rintro ⟨i', hi', hv'⟩
          exact ⟨i', List.mem_cons_of_mem _ hi', hv'⟩

/-- Copies are well-typed if the instructions are. -/
theorem instr_copyLines (hbase : base.Extends f) (hrenamed : ∀ v, Verify.KeepsType base f v (rename renamed v))
    (hlines : ∀ i ∈ instrs lines, Verify.instr base i = .ok ()) :
  ∀ i ∈ instrs (copyLines renamed lines f).1, Verify.instr (copyLines renamed lines f).2 i = .ok ()
  := by
  induction lines generalizing renamed f with
  | nil => simp [copyLines, instrs]
  | cons line rest ih =>
    have hall := extends_copyLines renamed (line :: rest) f
    have hrest : ∀ i ∈ instrs rest, Verify.instr base i = .ok () := fun i hi =>
      hlines i (List.mem_cons_of_mem _ hi)
    have huses : ∀ v, Verify.KeepsType base (copyLines renamed (line :: rest) f).2 v (rename renamed v) :=
      fun v t ht => Verify.keeps_varType hall _ t (hrenamed v t ht)
    have hslots : (copyLines renamed (line :: rest) f).2.slots = base.slots :=
      hall.slots.trans hbase.slots
    have hfirst := hlines line.instr (by simp [instrs])
    cases hdef : line.instr.def? with
    | none =>
      have hcopy := Verify.keeps_instr_rename hslots (rename renamed) id (fun v _ => huses v)
        (by simp [hdef]) () hfirst
      rw [Instr.mapDef_id] at hcopy
      rw [copyLines_none hdef] at hcopy ⊢
      intro i hi
      rcases List.mem_cons.mp hi with rfl | hi
      · exact hcopy
      · exact ih hbase hrenamed hrest i hi
    | some dst =>
      have hbase' : base.Extends (f.freshVar (f.varType dst)).2 :=
        ⟨hbase.slots, hbase.varTypes.trans (List.prefix_append _ _)⟩
      have hfresh : Verify.KeepsType base (f.freshVar (f.varType dst)).2 dst f.varTypes.length := by
        rw [Verify.keepsType_iff]
        intro t ht
        have htype : f.varType dst = t := by
          rw [Function.varType, List.getD_eq_getElem?_getD]
          obtain ⟨more, hmore⟩ := hbase.varTypes
          rw [← hmore, List.getElem?_append_left (List.getElem?_eq_some_iff.mp ht).1, ht]
          rfl
        simp [Function.freshVar, htype]
      have hrenamed' : ∀ v, Verify.KeepsType base (f.freshVar (f.varType dst)).2 v
          (rename ((dst, f.varTypes.length) :: renamed) v) := by
        intro v
        rw [rename_cons]
        split
        · next heq => exact heq ▸ hfresh
        · exact fun t ht => Verify.keeps_varType (extends_freshVar f _) _ t (hrenamed v t ht)
      have hcopy := Verify.keeps_instr_rename hslots (rename renamed) (fun _ => f.varTypes.length)
        (fun v _ => huses v) (fun v hv => ?_) () hfirst
      · rw [copyLines_some hdef] at hcopy ⊢
        intro i hi
        rcases List.mem_cons.mp hi with rfl | hi
        · exact hcopy
        · exact ih hbase' hrenamed' hrest i hi
      · cases hdef.symm.trans hv
        rw [copyLines_some hdef]
        exact fun t ht => Verify.keeps_varType (extends_copyLines _ rest _) _ t (hfresh t ht)

/-- Copies read what is defined if the instructions do. -/
theorem scoped_copyLines {known known' : VarId → Prop} (hknown : ∀ v, known v → known' (rename renamed v))
    (hscoped : Scoped known (instrs lines) []) :
  Scoped known' (instrs (copyLines renamed lines f).1) []
  := by
  induction lines generalizing known known' renamed f with
  | nil => simp [copyLines, instrs, Scoped]
  | cons line rest ih =>
    obtain ⟨hfirst, hrest⟩ := hscoped
    have huses : ∀ v ∈ line.instr.uses.map (rename renamed), known' v := by
      intro v hv
      obtain ⟨u, hu, rfl⟩ := List.mem_map.mp hv
      exact hknown u (hfirst u hu)
    cases hdef : line.instr.def? with
    | none =>
      rw [copyLines_none hdef]
      refine ⟨by simpa using huses, ih (fun v hv => ?_) hrest⟩
      rcases hv with hv | hv
      · exact .inl (hknown v hv)
      · rw [hdef] at hv
        cases hv
    | some dst =>
      rw [copyLines_some hdef]
      refine ⟨by simpa using huses, ih (fun v hv => ?_) hrest⟩
      rw [rename_cons]
      split
      · exact .inr (by simp [hdef])
      · next hne =>
        rcases hv with hv | hv
        · exact .inl (hknown v hv)
        · rw [hdef] at hv
          cases hv
          exact absurd rfl hne

/-- Copies do to the store what the instructions do. -/
theorem agree_copyLines {W : World} {known : VarId → Prop} {s t : State} (hbase : base.Extends f)
    (hdefs : ∀ i ∈ instrs lines, ∀ v, i.def? = some v → v < base.varTypes.length)
    (htype : ∀ v < (copyLines renamed lines f).2.varTypes.length,
      type' v = (copyLines renamed lines f).2.varType v)
    (hknown : ∀ v, known v → rename renamed v < f.varTypes.length) (hscoped : Scoped known (instrs lines) [])
    (hstore : s.store = t.store) (hvars : ∀ v, known v → s.vars v = t.vars (rename renamed v)) :
  Agree (fun s t => s.store = t.store) (runAll W calls base.varType (instrs lines) s)
    (runAll W calls type' (instrs (copyLines renamed lines f).1) t)
  := by
  induction lines generalizing known renamed f s t with
  | nil => exact ⟨t, rfl, hstore⟩
  | cons line rest ih =>
    obtain ⟨hfirst, hrest⟩ := hscoped
    have hact : ∀ type, line.instr.act W calls type s.vars s.store
        = (line.instr.mapUses (rename renamed)).act W calls type t.vars t.store := by
      intro type
      rw [Instr.act_mapUses, hstore]
      exact Instr.act_congr fun v hv => hvars v (hfirst v hv)
    have hdefs' : ∀ i ∈ instrs rest, ∀ v, i.def? = some v → v < base.varTypes.length := fun i hi =>
      hdefs i (List.mem_cons_of_mem _ hi)
    rw [instrs_cons, runAll_cons]
    cases hdef : line.instr.def? with
    | none =>
      rw [copyLines_none hdef] at htype ⊢
      rw [instrs_cons, runAll_cons]
      have hsame : ∀ v, (line.instr.mapUses (rename renamed)).def? = some v → base.varType v = type' v := by
        simp [hdef]
      have hcopy := (hact base.varType).trans (Instr.act_congr_type hsame)
      apply (Instr.agree_run_of_act hcopy).bind
      rintro _ _ ⟨x, after, rfl, rfl⟩
      simp only [Instr.def?_mapUses, hdef, setVar_none]
      refine ih hbase hdefs' htype (fun v hv => ?_) hrest rfl fun v hv => ?_
      · exact hknown v (hv.resolve_right (by simp [hdef]))
      · exact hvars v (hv.resolve_right (by simp [hdef]))
    | some dst =>
      rw [copyLines_some hdef] at htype ⊢
      rw [instrs_cons, runAll_cons]
      have hlt : f.varTypes.length < (f.freshVar (f.varType dst)).2.varTypes.length := by
        simp [Function.freshVar]
      -- The copy of the variable has the same type, so the same is computed for it.
      have hfresh : type' f.varTypes.length = base.varType dst := by
        have hmore := (extends_copyLines ((dst, f.varTypes.length) :: renamed) rest
          (f.freshVar (f.varType dst)).2).varTypes
        rw [htype _ (hlt.trans_le hmore.length_le), Function.varType_of_prefix hmore hlt,
          ← Function.varType_of_prefix hbase.varTypes (hdefs line.instr (by simp [instrs]) dst hdef)]
        simp [Function.freshVar, Function.varType]
      have hcopy : line.instr.act W calls base.varType s.vars s.store
          = ((line.instr.mapUses (rename renamed)).mapDef fun _ => f.varTypes.length).act W calls type'
            t.vars t.store := by
        rw [hact, Instr.act_mapDef]
        intro v hv
        rw [Instr.def?_mapUses, hdef] at hv
        cases hv
        exact hfresh
      apply (Instr.agree_run_of_act hcopy).bind
      rintro _ _ ⟨x, after, rfl, rfl⟩
      simp only [Instr.def?_mapDef, Instr.def?_mapUses, hdef, Option.map_some]
      refine ih ⟨hbase.slots, hbase.varTypes.trans (List.prefix_append _ _)⟩ hdefs' htype
        (fun v hv => ?_) hrest rfl fun v hv => ?_
      · rw [rename_cons]
        split
        · exact hlt
        · next hne => exact (hknown v (hv.resolve_right (by simpa [hdef] using Ne.symm hne))).trans hlt
      · rw [rename_cons]
        by_cases heq : v = dst
        · simp [heq, setVar]
        · have hv' := hv.resolve_right (by simpa [hdef] using Ne.symm heq)
          have hother : some dst ≠ some v := by simpa using Ne.symm heq
          have hold : some f.varTypes.length ≠ some (rename renamed v) := by
            simpa using (Nat.ne_of_lt (hknown v hv')).symm
          simp only [if_neg heq, setVar_of_ne hother, setVar_of_ne hold, hvars v hv']

end

/-! ## Any number of copies -/

/--
Instructions that are so many copies of the instructions of a base function, and that are added to a
function with maybe more variables than the base.
-/
structure Copies (base f g : Function) (n : Nat) (lines copies : List Instr) : Prop where
  frame : ∃ more, g = { f with varTypes := f.varTypes ++ more }
    ∧ copies.filterMap Instr.def? = List.range' f.varTypes.length more.length
  instr : (∀ i ∈ lines, Verify.instr base i = .ok ()) → ∀ i ∈ copies, Verify.instr g i = .ok ()
  uses : ∀ i ∈ copies, ∀ v ∈ i.uses, base.varTypes.length ≤ v ∨ ∃ i ∈ lines, v ∈ i.uses
  reads : ∀ known, Scoped known lines [] → Scoped known copies []
  run : ∀ {W : World} {calls : Caller} {type' : VarId → ValueType} {hidden : VarId → Prop} {s t : State},
    Scoped (fun v => ¬hidden v) lines [] → (∀ i ∈ lines, ∀ v, i.def? = some v → hidden v) →
    (∀ v, base.varTypes.length ≤ v → hidden v) →
    (∀ v < g.varTypes.length, type' v = g.varType v) → Similar hidden s t →
    Agree (Similar hidden) (runAll W calls base.varType (List.replicate n lines).flatten s)
      (runAll W calls type' copies t)

namespace Copies

variable {base f g h : Function} {m n : Nat} {lines copies more : List Instr}

theorem toExtends (hc : Copies base f g n lines copies) :
  f.Extends g
  := by
  obtain ⟨more, rfl, -⟩ := hc.frame
  exact ⟨rfl, List.prefix_append _ _⟩

/-- What copies define is new. -/
theorem fresh (hc : Copies base f g n lines copies) :
  (copies.filterMap Instr.def?).Nodup
    ∧ ∀ v ∈ copies.filterMap Instr.def?, f.varTypes.length ≤ v ∧ v < g.varTypes.length
  := by
  obtain ⟨more, rfl, hdefs⟩ := hc.frame
  rw [hdefs]
  refine ⟨List.nodup_range', fun v hv => ?_⟩
  rw [List.mem_range'_1] at hv
  exact ⟨hv.1, by simpa using hv.2⟩

theorem none (base f : Function) (lines : List Instr) :
  Copies base f f 0 lines []
  where
  frame := ⟨[], by simp, rfl⟩
  instr := by simp
  uses := by simp
  reads _ _ := by simp [Scoped]
  run _ _ _ _ hst := ⟨_, rfl, hst⟩

/-- Copies and then more copies. -/
theorem append (hc : Copies base f g m lines copies) (hc' : Copies base g h n lines more) :
  Copies base f h (m + n) lines (copies ++ more)
  where
  frame := by
    obtain ⟨types, rfl, hdefs⟩ := hc.frame
    obtain ⟨types', rfl, hdefs'⟩ := hc'.frame
    refine ⟨types ++ types', by simp, ?_⟩
    rw [List.filterMap_append, hdefs, hdefs', List.length_append, List.length_append, List.range'_append_1]
  instr hlines i hi := by
    rcases List.mem_append.mp hi with hi | hi
    · exact Verify.keeps_instr hc'.toExtends i () (hc.instr hlines i hi)
    · exact hc'.instr hlines i hi
  uses i hi := (List.mem_append.mp hi).elim (hc.uses i) (hc'.uses i)
  reads known hscoped := by
    rw [scoped_append]
    exact ⟨hc.reads known hscoped, (hc'.reads known hscoped).mono fun _ => .inl⟩
  run hscoped hdefs hfresh htype hst := by
    rw [List.replicate_add, List.flatten_append, runAll_append, runAll_append]
    refine (hc.run hscoped hdefs hfresh (fun v hv => ?_) hst).bind fun _ _ hst' => ?_
    · rw [htype v (hv.trans_le hc'.toExtends.varTypes.length_le)]
      exact Function.varType_of_prefix hc'.toExtends.varTypes hv
    · exact hc'.run hscoped hdefs hfresh htype hst'

end Copies

theorem copies_copyLines {base f : Function} (hbase : base.Extends f) (lines : List Line)
    (hdefs : ∀ i ∈ instrs lines, ∀ v, i.def? = some v → v < base.varTypes.length) :
  Copies base f (copyLines [] lines f).2 1 (instrs lines) (instrs (copyLines [] lines f).1)
  where
  frame := copyLines_frame [] lines f
  instr := instr_copyLines hbase fun v => Verify.keeps_varType hbase v
  uses := uses_copyLines hbase.varTypes.length_le fun _ => .inl rfl
  reads _ := scoped_copyLines fun _ hv => hv
  run {W calls type' hidden s t} hscoped hhidden hfresh htype hst := by
    have hlt : ∀ v, ¬hidden v → v < base.varTypes.length := fun v hv =>
      Nat.lt_of_not_le fun hle => hv (hfresh v hle)
    have hstore : Agree (fun s t => s.store = t.store) (runAll W calls base.varType (instrs lines) s)
        (runAll W calls type' (instrs (copyLines [] lines f).1) t) :=
      agree_copyLines hbase hdefs htype (fun v hv => (hlt v hv).trans_le hbase.varTypes.length_le) hscoped
        hst.1 hst.2
    rw [List.replicate_one, List.flatten_singleton]
    -- Neither the instructions nor their copies define a variable that is not hidden.
    obtain ⟨more, -, hnew⟩ := copyLines_frame [] lines f
    have hold : ∀ v, ¬hidden v → v ∉ (instrs lines).filterMap Instr.def? := by
      intro v hv hmem
      obtain ⟨i, hi, hdef⟩ := List.mem_filterMap.mp hmem
      exact hv (hhidden i hi v hdef)
    have hcopy : ∀ v, ¬hidden v → v ∉ (instrs (copyLines [] lines f).1).filterMap Instr.def? := by
      intro v hv hmem
      rw [hnew, List.mem_range'_1] at hmem
      exact Nat.not_le_of_lt ((hlt v hv).trans_le hbase.varTypes.length_le) hmem.1
    cases hs : runAll W calls base.varType (instrs lines) s with
    | error stop =>
      rw [hs] at hstore
      exact hstore
    | ok s' =>
      rw [hs] at hstore
      obtain ⟨t', ht, hsame⟩ := hstore
      refine ⟨t', ht, hsame, fun v hv => ?_⟩
      rw [vars_of_runAll hs (hold v hv), vars_of_runAll ht (hcopy v hv)]
      exact hst.2 v hv

theorem copies_copyTimes {base f : Function} (hbase : base.Extends f) (lines : List Line)
    (hdefs : ∀ i ∈ instrs lines, ∀ v, i.def? = some v → v < base.varTypes.length) (n : Nat) :
  Copies base f (copyTimes lines n f).2 n (instrs lines) (instrs (copyTimes lines n f).1)
  := by
  induction n generalizing f with
  | zero => exact Copies.none base f _
  | succ n ih =>
    have hfirst := copies_copyLines hbase lines hdefs
    have hextends : base.Extends (copyLines [] lines f).2 :=
      ⟨hfirst.toExtends.slots.trans hbase.slots, hbase.varTypes.trans hfirst.toExtends.varTypes⟩
    have hall := hfirst.append (ih hextends)
    rw [Nat.add_comm] at hall
    rw [copyTimes]
    simpa [instrs] using hall

end Unroll

end FormCompiler.Flow
