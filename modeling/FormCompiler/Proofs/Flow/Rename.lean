import FormCompiler.Proofs.Flow.Replace

/-!
# More variables and other variables

The checks of instructions only depend on the types of slots and variables. So they still succeed if a
function gets more variables, and after a pass only the instructions that it has made have to be
checked (`Function.verify_of_sameShape`).

An instruction that reads and defines other variables instead of its own is still well-typed if these
have the same types. The checks are gone through one by one, and each only looks at the types of
variables and slots.
-/

namespace FormCompiler.Flow

variable {ε α β : Type}
variable {items : List α}

/-! ## Functions with more variables -/

/-! ### Checks that still succeed -/

/-- A check that has succeeded succeeds in another setting, with the same outcome. -/
def Keeps {ε α : Type} (x y : Except ε α) : Prop := ∀ a, x = .ok a → y = .ok a

theorem Keeps.refl (x : Except ε α) :
  Keeps x x
  := fun _ hx => hx

theorem Keeps.bind {x y : Except ε α} {k k' : α → Except ε β} (h : Keeps x y) (hk : ∀ a, Keeps (k a) (k' a)) :
  Keeps (x >>= k) (y >>= k')
  := by
  intro b hb
  obtain ⟨a, ha, hb⟩ := bind_eq_ok.mp hb
  exact bind_eq_ok.mpr ⟨a, h a ha, hk a b hb⟩

theorem Keeps.forM {check check' : α → Except ε Unit} (h : ∀ item, Keeps (check item) (check' item)) :
  Keeps (items.forM check) (items.forM check')
  := fun _ hall => forM_eq_ok.mpr fun item hitem => h item () (forM_eq_ok.mp hall item hitem)

theorem Keeps.mapM {g g' : α → Except ε β} (h : ∀ item, Keeps (g item) (g' item)) :
  Keeps (items.mapM g) (items.mapM g')
  := by
  induction items with
  | nil => exact .refl _
  | cons item items ih =>
    rw [List.mapM_cons, List.mapM_cons]
    exact (h item).bind fun _ => ih.bind fun _ => .refl _

/-! ### Instructions -/

/-- A function with the same slots and maybe more variables. -/
structure Function.Extends (f g : Function) : Prop where
  slots : g.slots = f.slots
  varTypes : f.varTypes <+: g.varTypes

section

variable {f g : Function}

/-- Variables keep their types if there are more of them. -/
theorem Function.varType_of_prefix (h : f.varTypes <+: g.varTypes) {v : VarId} (hv : v < f.varTypes.length) :
  g.varType v = f.varType v
  := by
  obtain ⟨more, hmore⟩ := h
  rw [varType, varType, ← hmore, List.getD_append _ _ _ _ hv]

namespace Verify

section

variable (h : f.Extends g)

include h

theorem keeps_varType (v : VarId) :
  Keeps (varType f v) (varType g v)
  := by
  intro t ht
  rw [varType_eq_ok] at ht ⊢
  obtain ⟨more, hmore⟩ := h.varTypes
  obtain ⟨hlt, -⟩ := List.getElem?_eq_some_iff.mp ht
  rw [← hmore, List.getElem?_append_left hlt, ht]

theorem slotType_of_extends :
  slotType g = slotType f
  := by
  funext s
  simp only [slotType, h.slots]

theorem arrayIn_of_extends :
  arrayIn g = arrayIn f
  := by
  funext s
  simp only [arrayIn, slotType_of_extends h]

theorem keeps_expectThat (v : VarId) (wanted : Wanted) (p : ValueType → Bool) :
  Keeps (expectThat f v wanted p) (expectThat g v wanted p)
  := (keeps_varType h v).bind fun _ => .refl _

theorem keeps_expect (v : VarId) (type : ValueType) :
  Keeps (expect f v type) (expect g v type)
  := keeps_expectThat h v _ _

theorem keeps_same (a b : VarId) :
  Keeps (same f a b) (same g a b)
  := (keeps_varType h a).bind fun _ => (keeps_varType h b).bind fun _ => .refl _

theorem keeps_value (dst : VarId) (v : Value) :
  Keeps (value f dst v) (value g dst v)
  := by
  cases v with
  | const c => exact keeps_expectThat h _ _ _
  | copy source => exact keeps_same h _ _
  | cast source => exact (keeps_expectThat h _ _ _).bind fun _ => keeps_expectThat h _ _ _
  | unary op operand =>
    refine (keeps_same h _ _).bind fun _ => ?_
    cases op with
    | not => exact keeps_expect h _ _
    | neg | bitNot => exact keeps_expectThat h _ _ _
  | binary op lhs rhs =>
    refine (keeps_same h _ _).bind fun _ => ?_
    split
    · exact (keeps_expectThat h _ _ _).bind fun _ => keeps_expect h _ _
    split
    · exact (keeps_expect h _ _).bind fun _ => keeps_expect h _ _
    split
    · exact (keeps_expectThat h _ _ _).bind fun _ => keeps_same h _ _
    · exact (keeps_expectThat h _ _ _).bind fun _ => keeps_same h _ _

/-- Instructions stay right if there are more variables. -/
theorem keeps_instr (i : Instr) :
  Keeps (instr f i) (instr g i)
  := by
  cases i with
  | set dst v => exact keeps_value h dst v
  | call dst callee args convention isTail =>
    cases dst with
    | none => exact .refl _
    | some dst => exact keeps_expectThat h _ _ _
  | load dst s | store s dst =>
    simp only [instr, slotType_of_extends h]
    exact (Keeps.refl _).bind fun _ => keeps_expect h _ _
  | loadGlobal => exact .refl _
  | loadElement v s index | storeElement s index v =>
    simp only [instr, arrayIn_of_extends h]
    exact (Keeps.refl _).bind fun _ => (keeps_expectThat h _ _ _).bind fun _ => keeps_expect h _ _
  | boundsCheck index length => exact keeps_expectThat h _ _ _
  | makeArray dst elements =>
    refine (keeps_varType h _).bind fun type => ?_
    split
    · exact (Keeps.refl _).bind fun _ => Keeps.forM fun _ => keeps_expect h _ _
    · exact .refl _
  | makeTuple dst elements =>
    exact (Keeps.mapM fun _ => keeps_varType h _).bind fun _ => keeps_expect h _ _
  | extract dst tuple index =>
    refine (keeps_varType h _).bind fun type => ?_
    split
    · split
      · exact keeps_expect h _ _
      · exact .refl _
    · exact .refl _
  | alloc dst size => exact (keeps_expectThat h _ _ _).bind fun _ => keeps_expect h _ _
  | free pointer | release pointer => exact keeps_expect h _ _
  | loadLanes v s start | storeLanes s start v =>
    simp only [instr, lanes, arrayIn_of_extends h]
    refine (Keeps.refl _).bind fun _ => (keeps_varType h _).bind fun type => .refl _
  | binaryLanes dst op lhs rhs =>
    exact (keeps_same h _ _).bind fun _ => (keeps_same h _ _).bind fun _ =>
      (keeps_varType h _).bind fun _ => .refl _

theorem keeps_terminator (hs : SameShape f g) (t : Terminator) :
  Keeps (terminator f t) (terminator g t)
  := by
  cases t with
  | ret value =>
    cases value with
    | none => simp only [terminator, hs.result, Keeps.refl]
    | some v =>
      simp only [terminator, hs.result]
      exact keeps_expect h _ _
  | jump target args =>
    simp only [terminator, hs.length, hs.blockParams]
    exact (Keeps.refl _).bind fun _ => (Keeps.refl _).bind fun _ => Keeps.forM fun _ => keeps_same h _ _
  | branch test thenBlock elseBlock =>
    simp only [terminator, hs.length, hs.blockParams]
    exact (keeps_expect h _ _).bind fun _ => .refl _
  | unreachable => exact .refl _

end

theorem shape_of_sameShape (hs : SameShape f g) :
  shape g = shape f
  := by
  simp only [shape, hs.entry, hs.length, hs.params, hs.blockParams, hs.loops]

end Verify

/-- A function stays well-formed if the instructions that are new are right. -/
theorem Function.verify_of_sameShape (hf : f.verify = .ok ()) (hg : g.IsSsa) (hs : SameShape f g)
    (hextends : f.Extends g)
    (hinstrs : ∀ id, ∀ i ∈ (g.block id).instrs, i ∈ (f.block id).instrs
      ∨ (Verify.instr g i = .ok () ∧ ∀ v, i.def? = some v → v < g.varTypes.length)) :
  g.verify = .ok ()
  := by
  obtain ⟨-, hshape, hlt, hblocks⟩ := Function.verify_iff.mp hf
  have hle : f.varTypes.length ≤ g.varTypes.length := hextends.varTypes.length_le
  have hblock : ∀ {b}, b ∈ g.blocks → ∃ id < f.blocks.length, g.block id = b := by
    intro b hb
    obtain ⟨id, hid⟩ := List.getElem?_of_mem hb
    obtain ⟨hlt, -⟩ := List.getElem?_eq_some_iff.mp hid
    exact ⟨id, hs.length ▸ hlt, by simp [Function.block, hid]⟩
  have hmem : ∀ {id : BlockId}, id < f.blocks.length → f.block id ∈ f.blocks := by
    intro id hid
    simp [Function.block, hid]
  refine Function.verify_iff.mpr ⟨hg, Verify.shape_of_sameShape hs ▸ hshape, fun v hv => ?_, fun b hb => ?_⟩
  · obtain ⟨b, hb, hv⟩ := List.mem_flatMap.mp hv
    obtain ⟨id, hid, rfl⟩ := hblock hb
    have hold : v ∈ (f.block id).defs → v < g.varTypes.length := fun hv =>
      (hlt v (List.mem_flatMap.mpr ⟨_, hmem hid, hv⟩)).trans_le hle
    rcases List.mem_append.mp hv with hparam | hdef
    · exact hold (List.mem_append_left _ (hs.blockParams id ▸ hparam))
    · obtain ⟨i, hi, hdef⟩ := List.mem_filterMap.mp hdef
      rcases hinstrs id i hi with hi | ⟨-, hnew⟩
      · exact hold (List.mem_append_right _ (List.mem_filterMap.mpr ⟨i, hi, hdef⟩))
      · exact hnew v hdef
  · obtain ⟨id, hid, rfl⟩ := hblock hb
    obtain ⟨hold, hlast⟩ := check_bind_eq_ok.mp (hblocks _ (hmem hid))
    refine check_bind_eq_ok.mpr ⟨forM_eq_ok.mpr fun i hi => ?_, ?_⟩
    · rcases hinstrs id i hi with hi | ⟨hnew, -⟩
      · exact Verify.keeps_instr hextends i () (forM_eq_ok.mp hold i hi)
      · exact hnew
    · rw [hs.terminator id]
      exact Verify.keeps_terminator hextends hs _ () hlast

end

/-! ## Renamed variables -/

theorem Keeps.forM_map {rename : α → β} {check : α → Except ε Unit} {check' : β → Except ε Unit}
    (h : ∀ item ∈ items, Keeps (check item) (check' (rename item))) :
  Keeps (items.forM check) ((items.map rename).forM check')
  := by
  intro _ hall
  refine forM_eq_ok.mpr fun item hitem => ?_
  obtain ⟨old, hold, rfl⟩ := List.mem_map.mp hitem
  exact h old hold () (forM_eq_ok.mp hall old hold)

theorem Keeps.mapM_map {γ : Type} {rename : α → β} {g : α → Except ε γ} {g' : β → Except ε γ}
    (h : ∀ item ∈ items, Keeps (g item) (g' (rename item))) :
  Keeps (items.mapM g) ((items.map rename).mapM g')
  := by
  induction items with
  | nil => exact .refl _
  | cons item items ih =>
    rw [List.map_cons, List.mapM_cons, List.mapM_cons]
    refine (h item (by simp)).bind fun _ => ?_
    exact (ih fun other hother => h other (by simp [hother])).bind fun _ => .refl _

@[simp]
theorem Instr.mapDef_id (i : Instr) :
  i.mapDef id = i
  := by
  cases i with
  | call dst callee args convention isTail => cases dst <;> rfl
  | set | load | store | loadGlobal | loadElement | storeElement | boundsCheck | makeArray | makeTuple
  | extract | alloc | free | release | loadLanes | storeLanes | binaryLanes => rfl

@[simp]
theorem Instr.def?_mapDef (rename : VarId → VarId) (i : Instr) :
  (i.mapDef rename).def? = i.def?.map rename
  := by
  cases i <;> rfl

@[simp]
theorem Instr.uses_mapDef (rename : VarId → VarId) (i : Instr) :
  (i.mapDef rename).uses = i.uses
  := by
  cases i <;> rfl

namespace Verify

variable {f g : Function}
variable {v w : VarId}

/-- A variable has the type that another one has in another function. -/
def KeepsType (f g : Function) (v w : VarId) : Prop := Keeps (varType f v) (varType g w)

theorem keepsType_iff :
  KeepsType f g v w ↔ ∀ t, f.varTypes[v]? = some t → g.varTypes[w]? = some t
  := by
  simp only [KeepsType, Keeps, varType_eq_ok]

theorem keeps_ensure (condition : Bool) (fault fault' : VerifyFault) :
  Keeps (ensure condition fault) (ensure condition fault')
  := by
  rintro ⟨⟩ h
  exact ensure_eq_ok.mpr (ensure_eq_ok.mp h)

theorem keeps_throw (fault : VerifyFault) (y : Result α) :
  Keeps (throw fault) y
  := nofun

theorem KeepsType.expectThat (h : KeepsType f g v w) (wanted : Wanted) (p : ValueType → Bool) :
  Keeps (expectThat f v wanted p) (expectThat g w wanted p)
  := Keeps.bind h fun _ => keeps_ensure _ _ _

theorem KeepsType.expect (h : KeepsType f g v w) (type : ValueType) :
  Keeps (expect f v type) (expect g w type)
  := h.expectThat _ _

theorem KeepsType.same {v' w' : VarId} (h : KeepsType f g v w) (h' : KeepsType f g v' w') :
  Keeps (same f v v') (same g w w')
  := Keeps.bind h fun _ => Keeps.bind h' fun _ => keeps_ensure _ _ _

theorem keeps_value_rename {dst dst' : VarId} {v : Value} {rename : VarId → VarId}
    (hdst : KeepsType f g dst dst') (huses : ∀ u ∈ v.uses, KeepsType f g u (rename u)) :
  Keeps (value f dst v) (value g dst' (v.mapUses rename))
  := by
  cases v with
  | const c => exact hdst.expectThat _ _
  | copy source => exact hdst.same (huses source (by simp [Value.uses]))
  | cast source =>
    exact ((huses source (by simp [Value.uses])).expectThat _ _).bind fun _ => hdst.expectThat _ _
  | unary op operand =>
    refine (hdst.same (huses operand (by simp [Value.uses]))).bind fun _ => ?_
    cases op with
    | not => exact hdst.expect _
    | neg | bitNot => exact hdst.expectThat _ _
  | binary op lhs rhs =>
    have hlhs := huses lhs (by simp [Value.uses])
    refine (hlhs.same (huses rhs (by simp [Value.uses]))).bind fun _ => ?_
    split
    · exact (hlhs.expectThat _ _).bind fun _ => hdst.expect _
    split
    · exact (hlhs.expect _).bind fun _ => hdst.expect _
    split
    · exact (hlhs.expectThat _ _).bind fun _ => hdst.same hlhs
    · exact (hlhs.expectThat _ _).bind fun _ => hdst.same hlhs

/-- Instructions stay right if variables are replaced by others of the same types. -/
theorem keeps_instr_rename (hslots : g.slots = f.slots) {i : Instr} (rename renameDef : VarId → VarId)
    (huses : ∀ v ∈ i.uses, KeepsType f g v (rename v))
    (hdef : ∀ v, i.def? = some v → KeepsType f g v (renameDef v)) :
  Keeps (instr f i) (instr g ((i.mapUses rename).mapDef renameDef))
  := by
  have hslotType : slotType g = slotType f := by
    funext s
    simp only [slotType, hslots]
  have harrayIn : arrayIn g = arrayIn f := by
    funext s
    simp only [arrayIn, hslotType]
  cases i with
  | set dst v => exact keeps_value_rename (hdef dst rfl) huses
  | call dst callee args convention isTail =>
    cases dst with
    | none => exact .refl _
    | some dst => exact (hdef dst rfl).expectThat _ _
  | load dst s =>
    simp only [instr, Instr.mapUses, Instr.mapDef, hslotType]
    exact (Keeps.refl _).bind fun _ => (hdef dst rfl).expect _
  | store s v =>
    simp only [instr, Instr.mapUses, Instr.mapDef, hslotType]
    exact (Keeps.refl _).bind fun _ => (huses v (by simp [Instr.uses])).expect _
  | loadGlobal => exact .refl _
  | loadElement v s index =>
    simp only [instr, Instr.mapUses, Instr.mapDef, harrayIn]
    exact (Keeps.refl _).bind fun _ => ((huses index (by simp [Instr.uses])).expectThat _ _).bind fun _ =>
      (hdef v rfl).expect _
  | storeElement s index v =>
    simp only [instr, Instr.mapUses, Instr.mapDef, harrayIn]
    exact (Keeps.refl _).bind fun _ => ((huses index (by simp [Instr.uses])).expectThat _ _).bind fun _ =>
      (huses v (by simp [Instr.uses])).expect _
  | boundsCheck index length => exact (huses index (by simp [Instr.uses])).expectThat _ _
  | makeArray dst elements =>
    refine Keeps.bind (hdef dst rfl) fun type => ?_
    split
    · simp only [List.length_map]
      exact (keeps_ensure _ _ _).bind fun _ => Keeps.forM_map fun v hv => (huses v hv).expect _
    · exact keeps_throw _ _
  | makeTuple dst elements =>
    exact (Keeps.mapM_map huses).bind fun _ => (hdef dst rfl).expect _
  | extract dst tuple index =>
    refine Keeps.bind (huses tuple (by simp [Instr.uses])) fun type => ?_
    split
    · split
      · exact (hdef dst rfl).expect _
      · exact keeps_throw _ _
    · exact keeps_throw _ _
  | alloc dst size =>
    exact ((huses size (by simp [Instr.uses])).expectThat _ _).bind fun _ => (hdef dst rfl).expect _
  | free pointer | release pointer => exact (huses pointer (by simp [Instr.uses])).expect _
  | loadLanes v s start =>
    simp only [instr, Instr.mapUses, Instr.mapDef, lanes, harrayIn]
    refine (Keeps.refl _).bind fun _ => Keeps.bind (hdef v rfl) fun type => ?_
    split
    · exact (keeps_ensure _ _ _).bind fun _ => keeps_ensure _ _ _
    · exact keeps_throw _ _
  | storeLanes s start v =>
    simp only [instr, Instr.mapUses, Instr.mapDef, lanes, harrayIn]
    refine (Keeps.refl _).bind fun _ => Keeps.bind (huses v (by simp [Instr.uses])) fun type => ?_
    split
    · exact (keeps_ensure _ _ _).bind fun _ => keeps_ensure _ _ _
    · exact keeps_throw _ _
  | binaryLanes dst op lhs rhs =>
    have hlhs := huses lhs (by simp [Instr.uses])
    refine (hlhs.same (huses rhs (by simp [Instr.uses]))).bind fun _ => ?_
    refine ((hdef dst rfl).same hlhs).bind fun _ => Keeps.bind (hdef dst rfl) fun _ => ?_
    split
    · exact keeps_ensure _ _ _
    · exact keeps_throw _ _

/-- Terminators stay right if variables are replaced by others of the same types. -/
theorem keeps_terminator_rename (hresult : g.result = f.result) (hlength : g.blocks.length = f.blocks.length)
    (hparams : ∀ id, (g.block id).params = (f.block id).params) (htypes : ∀ v, KeepsType f g v v)
    {t : Terminator} (rename : VarId → VarId) (huses : ∀ v ∈ t.uses, KeepsType f g v (rename v)) :
  Keeps (terminator f t) (terminator g (t.mapUses rename))
  := by
  cases t with
  | ret value =>
    cases value with
    | none =>
      simp only [Terminator.mapUses, Option.map_none, terminator, hresult]
      exact .refl _
    | some v =>
      simp only [Terminator.mapUses, Option.map_some, terminator, hresult]
      exact (huses v (by simp [Terminator.uses])).expect _
  | jump target args =>
    simp only [Terminator.mapUses, terminator, hlength, hparams, List.length_map, List.zip_map_left]
    refine (Keeps.refl _).bind fun _ => (Keeps.refl _).bind fun _ => Keeps.forM_map ?_
    rintro ⟨arg, param⟩ hmem
    exact (huses arg (List.of_mem_zip hmem).1).same (htypes param)
  | branch test thenBlock elseBlock =>
    simp only [Terminator.mapUses, terminator, hlength, hparams]
    exact ((huses test (by simp [Terminator.uses])).expect _).bind fun _ => .refl _
  | unreachable => exact .refl _

end Verify

/-- What has to be checked of a function in single assignment form. -/
theorem Function.verify_of_blocks {g : Function} (hg : g.IsSsa) (hshape : Verify.shape g = .ok ())
    (hdefs : ∀ id, ∀ v ∈ (g.block id).defs, v < g.varTypes.length)
    (hinstrs : ∀ id, ∀ i ∈ (g.block id).instrs, Verify.instr g i = .ok ())
    (hlast : ∀ id < g.blocks.length, Verify.terminator g (g.block id).terminator = .ok ()) :
  g.verify = .ok ()
  := by
  refine Function.verify_iff.mpr ⟨hg, hshape, fun v hv => ?_, fun b hb => ?_⟩
  · obtain ⟨b, hb, hv⟩ := List.mem_flatMap.mp hv
    obtain ⟨id, hid⟩ := List.getElem?_of_mem hb
    exact hdefs id v (by simpa [Function.block, hid] using hv)
  · obtain ⟨id, hid⟩ := List.getElem?_of_mem hb
    obtain rfl : g.block id = b := by simp [Function.block, hid]
    refine check_bind_eq_ok.mpr ⟨forM_eq_ok.mpr (hinstrs id), hlast id ?_⟩
    exact (List.getElem?_eq_some_iff.mp hid).1

section

variable {f : Function} {id : BlockId}

theorem Function.getElem?_of_mem_block {P : Block → Prop} (hempty : ¬P .empty) (h : P (f.block id)) :
  f.blocks[id]? = some (f.block id)
  := by
  by_cases hid : id < f.blocks.length
  · simp [Function.block, hid]
  · refine absurd ?_ hempty
    rwa [show f.block id = .empty by simp [Function.block, hid]] at h

theorem Function.getElem?_of_mem_instrs {i : Instr} (hi : i ∈ (f.block id).instrs) :
  f.blocks[id]? = some (f.block id)
  := Function.getElem?_of_mem_block (P := fun b => i ∈ b.instrs) (by simp [Block.instrs, Block.empty]) hi

theorem Function.getElem?_of_mem_defs {v : VarId} (hv : v ∈ (f.block id).defs) :
  f.blocks[id]? = some (f.block id)
  := Function.getElem?_of_mem_block (P := fun b => v ∈ b.defs)
    (by simp [Block.defs, Block.instrs, Block.empty]) hv

/-- The instructions of a well-formed function are well-typed. -/
theorem Verify.instr_of_mem (hf : f.verify = .ok ()) {i : Instr} (hi : i ∈ (f.block id).instrs) :
  Verify.instr f i = .ok ()
  := Verify.instr_eq_ok hf (Function.getElem?_of_mem_instrs hi) hi

theorem Verify.lt_of_mem_defs (hf : f.verify = .ok ()) {v : VarId} (hv : v ∈ (f.block id).defs) :
  v < f.varTypes.length
  := by
  obtain ⟨-, -, hdefs, -⟩ := Function.verify_iff.mp hf
  exact hdefs v (List.mem_flatMap.mpr ⟨_, List.mem_of_getElem? (Function.getElem?_of_mem_defs hv), hv⟩)

theorem Verify.terminator_of_lt (hf : f.verify = .ok ()) (hid : id < f.blocks.length) :
  Verify.terminator f (f.block id).terminator = .ok ()
  := by
  have hget : f.blocks[id]? = some (f.block id) := by simp [Function.block, hid]
  exact Verify.terminator_eq_ok hf hget

end

end FormCompiler.Flow
