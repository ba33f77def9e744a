import FormCompiler.Proofs.Flow.BlockText
import FormCompiler.Proofs.Flow.Verify

/-!
# Functions read back

The written form of a well-formed function reads back as the function (`Function.ofText_text`): all
blocks with their instructions and spans, the slots, the loops, the flags, and the type of every
variable, defined or not. The lines of the parts are read one part after another, and at the end each
variable has been given its type exactly once.
-/

namespace FormCompiler.Flow

/-! ## Words and names -/

/--
Whether the numbers of a function fit the words that hold them. Variables, blocks and slots are
numbered by 32-bit words, and so there are at most as many of them as such words.
-/
structure Function.Fits (f : Function) : Prop where
  result : f.result.Fits
  entry : Fits32 f.entry
  blocks : ∀ b ∈ f.blocks, b.Fits
  blockCount : f.blocks.length ≤ twoPow 32
  varTypes : ∀ t ∈ f.varTypes, t.Fits
  varCount : f.varTypes.length ≤ twoPow 32
  slots : ∀ s ∈ f.slots, s.type.Fits
  slotCount : f.slots.length ≤ twoPow 32
  loops : ∀ l ∈ f.loops, l.Fits

/-- Whether the names of a function are plain and its constants are numbers. -/
structure Function.IsPlain (f : Function) : Prop where
  name : IsPlainName f.name
  slots : ∀ s ∈ f.slots, ∀ name ∈ s.name, IsPlainName name
  instrs : ∀ b ∈ f.blocks, ∀ instr ∈ b.instrs, instr.IsPlain

namespace Read

variable {f : Function}

/-! ## The parts of a function -/

/-- The variables that have a type but no definition. -/
def deadVars (f : Function) : List VarId :=
  (List.range f.varTypes.length).filter fun v => !f.isDefined v

theorem deadLines_eq (f : Function) :
  f.deadLines = (deadVars f).map fun v => "  dead " ++ typedText v (f.varType v)
  := by
  have hzip : f.varTypes.zipIdx = (List.range f.varTypes.length).map fun v => (f.varType v, v) := by
    apply List.ext_getElem
    · simp
    · intro i h h'
      simp only [List.getElem_zipIdx, List.getElem_map, List.getElem_range, Nat.zero_add,
        Function.varType]
      simp at h
      simp [h]
  rw [Function.deadLines, hzip, deadVars, List.filter_map, List.map_map]
  rfl

theorem reads_slots (hcount : f.slots.length ≤ twoPow 32) (hfits : ∀ s ∈ f.slots, s.type.Fits)
    (hnames : ∀ s ∈ f.slots, ∀ name ∈ s.name, IsPlainName name) :
  Reads ⟨.header, part f [] [] [], []⟩
    (f.slots.zipIdx.flatMap fun (s, id) => [(s.text id).toList])
    ⟨.header, part f f.slots [] [], []⟩
  := by
  apply reads_zipIdx (fun s id => [(s.text id).toList])
    (fun done => ⟨.header, part f done [] [], []⟩)
  intro done slot rest hslots
  have hlength : done.length < f.slots.length := by simp [hslots]
  have hmem : slot ∈ f.slots := by simp [hslots]
  have hread := headerItem_slot f done [] (Nat.lt_of_lt_of_le hlength hcount)
    (hnames slot hmem) (hfits slot hmem)
  rw [toList_slotLine]
  set text := (Nat.toDigits 10 done.length ++ slot.name.elim [] fun name => ' ' :: name.toList) ++
    ':' :: ' ' :: slot.type.text.toList with htext
  have hends : EndsTight ("slot $".toList ++ text) := by
    have htype := (endsTight_typeText slot.type).append
      ("slot $".toList ++ (Nat.toDigits 10 done.length ++
        (slot.name.elim [] fun name => ' ' :: name.toList)) ++ [':', ' '])
    simpa [htext] using htype
  apply Reads.indented (c := 's') (by decide) hends
  rw [line_header rfl (by decide) (by decide)]
  exact hread

theorem reads_loops (hfits : ∀ l ∈ f.loops, l.Fits) :
  Reads ⟨.header, part f f.slots [] [], []⟩ (f.loops.flatMap fun l => [l.text.toList])
    ⟨.header, part f f.slots f.loops [], []⟩
  := by
  apply reads_flatMap (fun l => [l.text.toList])
    (fun done => ⟨.header, part f f.slots done [], []⟩)
  intro done l rest hloops
  have hread := headerItem_loop f f.slots done []
    (hfits l (by simp [hloops]))
  have hends : EndsTight ("loop ".toList ++ [' '].intercalate (l.fields.map fieldText)) := by
    apply EndsTight.append
    apply endsTight_intercalate (by simp [LoopInfo.fields])
    intro word hword
    obtain ⟨field, hfield, rfl⟩ := List.mem_map.mp hword
    exact endsTight_of_forall (by simp [fieldText]) (isField_fields l field hfield).2
  rw [toList_loopText]
  apply Reads.indented (c := 'l') (by decide) hends
  rw [line_header rfl (by decide) (by decide)]
  exact hread

theorem reads_dead (hcount : f.varTypes.length ≤ twoPow 32) (hfits : ∀ t ∈ f.varTypes, t.Fits) :
  Reads ⟨.header, part f f.slots f.loops [], []⟩
    ((deadVars f).flatMap fun v => [("  dead " ++ typedText v (f.varType v)).toList])
    ⟨.header, part f f.slots f.loops [], typesOf f (deadVars f)⟩
  := by
  have hnodup : (deadVars f).Nodup := List.nodup_range.filter _
  apply reads_flatMap (fun v => [("  dead " ++ typedText v (f.varType v)).toList])
    (fun done => ⟨.header, part f f.slots f.loops [], typesOf f done⟩)
  intro done v rest hvars
  have hlt : v < f.varTypes.length := by
    have hmem : v ∈ deadVars f := by simp [hvars]
    simpa using (List.mem_filter.mp hmem).1
  have hnew : v ∉ done := by
    rw [hvars] at hnodup
    intro hmem
    exact (List.nodup_append.mp hnodup).2.2 v hmem v (by simp) rfl
  have htype : (f.varType v).Fits := by
    apply hfits
    simp [Function.varType, hlt]
  have hread := headerItem_dead (f := f) (g := part f f.slots f.loops []) hnew
    (Nat.lt_of_lt_of_le hlt hcount) htype
  have hraw : ("  dead " ++ typedText v (f.varType v)).toList
      = ' ' :: ' ' :: 'd' :: ("ead ".toList ++ (typedText v (f.varType v)).toList) := by
    rw [String.toList_append]
    rfl
  have hends : EndsTight ('d' :: ("ead ".toList ++ (typedText v (f.varType v)).toList)) := by
    have htyped := (endsTight_typeText (f.varType v)).append
      ("dead ".toList ++ ((varText v).toList ++ [':', ' ']))
    simpa [toList_typedText] using htyped
  rw [hraw]
  apply Reads.indented (by decide) hends
  rw [line_header rfl (by decide) (by decide)]
  exact hread

/-- All blocks are read, each after the one before. -/
theorem reads_blocks (hcount : f.blocks.length ≤ twoPow 32) (hfits : ∀ b ∈ f.blocks, b.Fits)
    (htypes : ∀ b ∈ f.blocks, ∀ v ∈ b.params, (f.varType v).Fits)
    (hlines : ∀ b ∈ f.blocks, ∀ line ∈ b.body, IsReadable f line)
    (hnodup : (deadVars f ++ f.blocks.flatMap Block.defs).Nodup) :
  Reads ⟨.header, part f f.slots f.loops [], typesOf f (deadVars f)⟩
    (f.blocks.zipIdx.flatMap fun (b, id) => (b.lines f.varType id).map String.toList)
    ⟨if f.blocks = [] then .header else .block true, part f f.slots f.loops f.blocks,
      typesOf f (deadVars f ++ f.blocks.flatMap Block.defs)⟩
  := by
  have hread := @reads_zipIdx Block f.blocks
    (fun b id => (b.lines f.varType id).map String.toList)
    (fun done => ⟨if done = [] then .header else .block true, part f f.slots f.loops done,
      typesOf f (deadVars f ++ done.flatMap Block.defs)⟩)
  simp only [if_true, List.flatMap_nil, List.append_nil] at hread
  apply hread
  intro done b rest hblocks
  have hmem : b ∈ f.blocks := by simp [hblocks]
  have hlength : done.length < f.blocks.length := by simp [hblocks]
  have hne : done ++ [b] ≠ [] := by simp
  rw [List.flatMap_append, List.flatMap_singleton, ← List.append_assoc, if_neg hne]
  apply reads_block
  · split <;> simp
  · exact Nat.lt_of_lt_of_le hlength hcount
  · exact hfits b hmem
  · exact htypes b hmem
  · exact hlines b hmem
  · rw [hblocks, ← List.singleton_append, List.flatMap_append, List.flatMap_append,
      List.flatMap_singleton, ← List.append_assoc, ← List.append_assoc] at hnodup
    exact (List.nodup_append.mp hnodup).1

/-! ## The table of types -/

theorem foldl_max_range (n : Nat) :
  ((List.range n).map (· + 1)).foldl max 0 = n
  := by
  induction n with
  | zero => rfl
  | succ n ih =>
    rw [List.range_succ, List.map_append, List.foldl_append, ih]
    simp

theorem mapM_lookup_typesOf {vs : List VarId} (ws : List VarId) (h : ∀ w ∈ ws, w ∈ vs) :
  ws.mapM (fun v => required ((typesOf f vs).lookup v) (.untyped v)) = .ok (ws.map f.varType)
  := by
  induction ws with
  | nil => rfl
  | cons w ws ih =>
    rw [List.mapM_cons, ih fun v hv => h v (by simp [hv]), lookup_typesOf, if_pos (h w (by simp))]
    rfl

/-- If every variable was given its type exactly once, the table is that of the function. -/
theorem typeTable_typesOf {vs : List VarId} (hnodup : vs.Nodup) (hmem : ∀ v, v ∈ vs ↔ v < f.varTypes.length) :
  typeTable (typesOf f vs) = .ok f.varTypes
  := by
  have hperm : vs.Perm (List.range f.varTypes.length) := by
    rw [List.perm_ext_iff_of_nodup hnodup List.nodup_range]
    simpa using hmem
  have hlength : (typesOf f vs).length = f.varTypes.length := by
    simpa [typesOf] using hperm.length_eq
  have hcount : ((typesOf f vs).map (·.1 + 1)).foldl max 0 = f.varTypes.length := by
    have hmap : (typesOf f vs).map (·.1 + 1) = (vs.map (· + 1)).reverse := by
      simp [typesOf, Function.comp_def]
    have hperm' : ((typesOf f vs).map (·.1 + 1)).Perm
        ((List.range f.varTypes.length).map (· + 1)) := by
      rw [hmap]
      exact (List.reverse_perm _).trans (hperm.map _)
    rw [hperm'.foldl_eq, foldl_max_range]
  have hread := mapM_lookup_typesOf (f := f) (List.range f.varTypes.length)
    fun w hw => (hmem w).mpr (List.mem_range.mp hw)
  have htable : (List.range f.varTypes.length).map f.varType = f.varTypes := by
    apply List.ext_getElem
    · simp
    · intro i h h'
      simp [Function.varType, h']
  unfold typeTable
  simp only [hcount, hlength]
  rw [Nat.min_eq_left (by omega), hread, htable]

end Read

/-! ## Functions -/

namespace Function

variable {f : Function}

theorem isDefined_iff {v : VarId} :
  f.isDefined v = true ↔ v ∈ f.blocks.flatMap Block.defs
  := by
  simp [isDefined]

/-- The variables that are read from a well-formed function, dead and defined. -/
theorem nodup_vars (h : f.verify = .ok ()) :
  (Read.deadVars f ++ f.blocks.flatMap Block.defs).Nodup ∧
    ∀ v, v ∈ Read.deadVars f ++ f.blocks.flatMap Block.defs ↔ v < f.varTypes.length
  := by
  obtain ⟨-, hdefinitions, -⟩ := verify_eq_ok.mp h
  obtain ⟨hnodup, hlt⟩ := Verify.nodup_of_definitions hdefinitions
  rw [Verify.map_fst_allSites] at hnodup hlt
  constructor
  · rw [List.nodup_append]
    refine ⟨List.nodup_range.filter _, hnodup, ?_⟩
    rintro v hdead w hdefined rfl
    have hnot := (List.mem_filter.mp hdead).2
    rw [isDefined_iff.mpr hdefined] at hnot
    contradiction
  · intro v
    rw [List.mem_append, Read.deadVars, List.mem_filter, List.mem_range]
    constructor
    · rintro (⟨hv, -⟩ | hv)
      · exact hv
      · exact (hlt v hv).1
    · intro hv
      by_cases hdefined : f.isDefined v = true
      · exact .inr (isDefined_iff.mp hdefined)
      · exact .inl ⟨hv, by simpa using hdefined⟩

/-- Constants have the types of their variables. -/
theorem constHasType_of_verify {b : Block} {dst : VarId} {c : Const} (h : f.verify = .ok ()) (hb : b ∈ f.blocks)
    (hinstr : Instr.set dst (.const c) ∈ b.instrs) :
  Verify.constHasType c (f.varType dst) = true
  := by
  obtain ⟨-, -, hblocks, -⟩ := verify_eq_ok.mp h
  obtain ⟨id, hid⟩ := List.mem_iff_getElem?.mp hb
  obtain ⟨⟨⟩, hinstrs, -⟩ := bind_eq_ok.mp (hblocks id b hid)
  have hvalue := forM_eq_ok.mp hinstrs _ hinstr
  obtain ⟨t, htype, hconst⟩ := Verify.expectThat_eq_ok.mp hvalue
  rw [varType, List.getD_eq_getElem?_getD, htype]
  exact hconst

/-- The lines of a well-formed function can be read. -/
theorem isReadable {b : Block} {line : Line} (h : f.verify = .ok ()) (hfits : f.Fits) (hplain : f.IsPlain)
    (hb : b ∈ f.blocks) (hline : line ∈ b.body) :
  Read.IsReadable f line
  := by
  have hinstr : line.instr ∈ b.instrs := List.mem_map.mpr ⟨line, hline, rfl⟩
  refine ⟨(hfits.blocks b hb).instrs line hline, hplain.instrs b hb _ hinstr,
    (hfits.blocks b hb).spans line hline, ?_, ?_⟩
  · intro v hv
    have hdefs : v ∈ b.defs := List.mem_append_right _ (List.mem_filterMap.mpr ⟨_, hinstr, hv⟩)
    have hlt := ((nodup_vars h).2 v).mp
      (List.mem_append_right _ (List.mem_flatMap.mpr ⟨b, hb, hdefs⟩))
    refine ⟨Nat.lt_of_lt_of_le hlt hfits.varCount, hfits.varTypes _ ?_⟩
    simp [varType, hlt]
  · intro dst c hc
    rw [hc] at hinstr
    exact constHasType_of_verify h hb hinstr

/-! No line has a line break in it. -/

theorem newline_not_mem_typedText (v : VarId) (t : ValueType) :
  '\n' ∉ (typedText v t).toList
  := by
  simp [Read.toList_typedText, not_mem_varText (c := '\n') (v := v) (by decide) (by decide),
    not_mem_typeText (c := '\n') (by decide) (by decide) t]

theorem newline_not_mem_name {name : String} (h : IsPlainName name) :
  '\n' ∉ name.toList
  := by
  intro hmem
  have hblank := (h.2 _ hmem).1
  contradiction

theorem newline_not_mem_blockLines {b : Block} (id : BlockId) (h : ∀ line ∈ b.body, line.instr.IsPlain) :
  ∀ text ∈ (b.lines f.varType id).map String.toList, '\n' ∉ text
  := by
  rw [Read.map_toList_blockLines]
  simp only [List.forall_mem_append, List.forall_mem_singleton]
  refine ⟨?_, ?_, ?_⟩
  · have hblock : '\n' ∉ (blockText id).toList := not_mem_blockText (by decide) (by decide)
    have hparams : '\n' ∉ Read.paramsText f b.params := by
      apply Text.not_mem_intercalate (by decide)
      intro part hpart
      obtain ⟨p, -, rfl⟩ := List.mem_map.mp hpart
      apply newline_not_mem_typedText
    unfold Read.blockLineText
    split <;> simp [hblock, hparams]
  · intro text htext
    obtain ⟨line, hline, hmem⟩ := List.mem_flatMap.mp htext
    obtain rfl := List.mem_singleton.mp hmem
    have hinstr := (Read.isLineText_instrText f (h line hline)).newline
    have hraw : '\n' ∉ Read.lineText f line := by
      unfold Read.lineText
      split
      · next span hspan =>
        simp [hinstr, Read.toList_spanText, Text.not_mem_toDigits (c := '\n') (by decide)]
      · exact hinstr
    rw [String.toList_append, Read.toList_lineText]
    simpa using hraw
  · have hterminator := (Read.isLineText_terminator b.terminator).newline
    simpa using hterminator

theorem map_toList_lines (f : Function) :
  f.lines.map String.toList
    = [f.header.toList] ++ ((f.slots.zipIdx.flatMap fun (s, id) => [(s.text id).toList]) ++
      ((f.loops.flatMap fun l => [l.text.toList]) ++
      (((Read.deadVars f).flatMap fun v => [("  dead " ++ typedText v (f.varType v)).toList]) ++
      ((f.blocks.zipIdx.flatMap fun (b, id) => (b.lines f.varType id).map String.toList) ++
      [['\x7d']]))))
  := by
  have hslots : (f.slots.zipIdx.flatMap fun (s, id) => [(s.text id).toList])
      = (f.slots.zipIdx.map fun (s, id) => s.text id).map String.toList := by
    rw [List.map_map, ← List.map_eq_flatMap]
    rfl
  have hloops : (f.loops.flatMap fun l => [l.text.toList])
      = (f.loops.map LoopInfo.text).map String.toList := by
    rw [List.map_map, ← List.map_eq_flatMap]
    rfl
  have hdead : ((Read.deadVars f).flatMap fun v => [("  dead " ++ typedText v (f.varType v)).toList])
      = f.deadLines.map String.toList := by
    rw [Read.deadLines_eq, List.map_map, ← List.map_eq_flatMap]
    rfl
  have hblocks : (f.blocks.zipIdx.flatMap fun (b, id) => (b.lines f.varType id).map String.toList)
      = (f.blocks.zipIdx.flatMap fun (b, id) => b.lines f.varType id).map String.toList := by
    rw [List.map_flatMap]
  rw [hslots, hloops, hdead, hblocks, lines]
  simp only [List.map_append, List.map_cons, List.map_nil, List.append_assoc, List.cons_append,
    List.nil_append]
  rfl

theorem newline_not_mem_lines (h : f.IsPlain) :
  ∀ text ∈ f.lines.map String.toList, '\n' ∉ text
  := by
  rw [map_toList_lines]
  simp only [List.forall_mem_append, List.forall_mem_singleton, List.forall_mem_flatMap]
  refine ⟨?_, ?_, ?_, ?_, ?_, by decide⟩
  · simp [Read.toList_header, newline_not_mem_name h.name,
      not_mem_typeText (c := '\n') (by decide) (by decide) f.result,
      Read.newline_not_mem_attributeText]
  · rintro ⟨s, id⟩ hs
    have hmem : s ∈ f.slots := List.fst_mem_of_mem_zipIdx hs
    have htype := not_mem_typeText (c := '\n') (by decide) (by decide) s.type
    rw [Read.toList_slotLine]
    cases hname : s.name with
    | none => simp [Text.not_mem_toDigits (c := '\n') (by decide), htype]
    | some name =>
      simp [Text.not_mem_toDigits (c := '\n') (by decide), htype,
        newline_not_mem_name (h.slots s hmem name hname)]
  · intro l hl
    rw [toList_loopText, List.mem_append, not_or]
    refine ⟨by decide, Text.not_mem_intercalate (by decide) ?_⟩
    intro part hpart hmem
    obtain ⟨field, hfield, rfl⟩ := List.mem_map.mp hpart
    have hblank := (isField_fields l field hfield).2 _ hmem
    contradiction
  · intro v hv
    simp [newline_not_mem_typedText]
  · rintro ⟨b, id⟩ hb
    have hmem : b ∈ f.blocks := List.fst_mem_of_mem_zipIdx hb
    apply newline_not_mem_blockLines
    exact fun line hline => h.instrs b hmem _ (List.mem_map.mpr ⟨line, hline, rfl⟩)

/-- The lines of the written form of a function are those it was made from. -/
theorem lines_text (h : f.IsPlain) :
  Text.lines f.text.toList = f.lines.map String.toList
  := by
  have hfold : ∀ (ls : List String) (s : String),
      (ls.foldl (· ++ ·) s).toList = s.toList ++ ls.flatMap String.toList := by
    intro ls
    induction ls with
    | nil => simp
    | cons l ls ih =>
      intro s
      rw [List.foldl_cons, ih]
      simp
  have hjoin : (String.join (f.lines.map (· ++ "\n"))).toList
      = (f.lines.map String.toList).flatMap (· ++ ['\n']) := by
    rw [String.join, hfold, List.flatMap_map, List.flatMap_map]
    simp
  rw [text, hjoin, Text.lines_flatMap (newline_not_mem_lines h)]

/-- All lines of a function are read. -/
theorem reads_lines (h : f.verify = .ok ()) (hfits : f.Fits) (hplain : f.IsPlain) :
  Read.Reads .initial (f.lines.map String.toList)
    ⟨.done, Read.part f f.slots f.loops f.blocks,
      Read.typesOf f (Read.deadVars f ++ f.blocks.flatMap Block.defs)⟩
  := by
  obtain ⟨hshape, -⟩ := verify_eq_ok.mp h
  have hne : f.blocks ≠ [] := by
    obtain ⟨b, hb, -⟩ := Verify.entry_of_shape hshape
    intro hnil
    simp [hnil] at hb
  have htypes : ∀ b ∈ f.blocks, ∀ v ∈ b.params, (f.varType v).Fits := by
    intro b hb v hv
    have hdefs : v ∈ b.defs := List.mem_append_left _ hv
    have hlt := ((nodup_vars h).2 v).mp
      (List.mem_append_right _ (List.mem_flatMap.mpr ⟨b, hb, hdefs⟩))
    apply hfits.varTypes
    simp [varType, hlt]
  rw [map_toList_lines]
  apply (Read.reads_header hplain.name hfits.result hfits.entry).append
  apply (Read.reads_slots hfits.slotCount hfits.slots hplain.slots).append
  apply (Read.reads_loops hfits.loops).append
  apply (Read.reads_dead hfits.varCount hfits.varTypes).append
  apply (Read.reads_blocks hfits.blockCount hfits.blocks htypes
    (fun b hb line hline => isReadable h hfits hplain hb hline) (nodup_vars h).1).append
  rw [if_neg hne]
  apply Read.Reads.line (by decide : Text.trim "\x7d".toList = ['\x7d']) (by simp)
  rfl

/-- The written form of a well-formed function reads back as the function. -/
theorem ofText_text
    {f : Function} (h : f.verify = .ok ()) (hfits : f.Fits) (hplain : f.IsPlain) :
  Function.ofText f.text = .ok f
  := by
  obtain ⟨hshape, -⟩ := verify_eq_ok.mp h
  obtain ⟨entry, hentry, hparams⟩ := Verify.entry_of_shape hshape
  obtain ⟨hnodup, hmem⟩ := nodup_vars h
  have hread := reads_lines h hfits hplain 1 []
  rw [List.append_nil, Read.lines] at hread
  have hfinish : Read.finish ⟨.done, Read.part f f.slots f.loops f.blocks,
      Read.typesOf f (Read.deadVars f ++ f.blocks.flatMap Block.defs)⟩ = .ok f := by
    simp only [Read.finish, Read.typeTable_typesOf hnodup hmem, Read.part, hentry, bind, Except.bind,
      pure, Except.pure, hparams]
    rfl
  rw [Function.ofText, lines_text hplain]
  simp only [hread, bind, Except.bind, pure, Except.pure, hfinish, Except.mapError]

/-- A function that halves a number, with a variable that is not used. -/
def half : Function :=
  { name := "half"
    params := [0]
    result := .int 64
    blocks :=
      [⟨[0],
        [⟨.store 0 0, none⟩, ⟨.set 1 (.const (.int 2)), some ⟨23, 24⟩⟩,
          ⟨.set 2 (.binary .div 0 1), some ⟨20, 25⟩⟩],
        .ret (some 2)⟩]
    entry := 0
    varTypes := [.int 64, .int 64, .int 64, .bool]
    slots := [⟨some "n", .int 64⟩]
    loops := []
    flags := .none }

theorem half_fits :
  half.Fits
  := by
  constructor <;> simp [half, ValueType.Fits, twoPow]
  constructor <;> simp [Instr.Fits, Value.Fits, Const.Fits, Terminator.Fits, twoPow, isInt64]

theorem isPlainName_of_all
    {name : String} (hne : name ≠ "")
    (h : (name.toList.all fun c => !Text.isBlank c && !("():.".toList.contains c)) = true) :
  IsPlainName name
  := by
  refine ⟨hne, fun c hc => ?_⟩
  simpa using List.all_eq_true.mp h c hc

theorem half_isPlain :
  half.IsPlain
  := by
  constructor
  · exact isPlainName_of_all (by decide) (by decide)
  · intro s hs name hname
    obtain rfl : s = ⟨some "n", .int 64⟩ := by simpa [half] using hs
    obtain rfl : "n" = name := by simpa using hname
    exact isPlainName_of_all (by decide) (by decide)
  · intro b hb instr hinstr
    obtain rfl : b = half.blocks[0] := by simpa [half] using hb
    simp only [half, Block.instrs, List.getElem_cons_zero, List.map_cons, List.map_nil, List.mem_cons,
      List.not_mem_nil, or_false] at hinstr
    rcases hinstr with rfl | rfl | rfl <;> exact ⟨by simp [Instr.name?], by simp [Instr.float?]⟩

theorem half_ofText_text :
  half.verify = .ok () ∧ half.Fits ∧ half.IsPlain ∧ ofText half.text = .ok half
  := ⟨rfl, half_fits, half_isPlain, ofText_text rfl half_fits half_isPlain⟩

end Function

end FormCompiler.Flow
