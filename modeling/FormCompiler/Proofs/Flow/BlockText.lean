import FormCompiler.Proofs.Flow.HeaderText

/-!
# Blocks read back

The reader goes from line to line, and its state is at every point known from the part of the
function that is before the point: `Reads s ls s'` says that reading the lines `ls` takes the state
`s` to `s'`. The variables that have a type so far are kept in the order of their lines (`typesOf`),
and that no variable is among them twice is what makes `define` succeed. `reads_block` puts the lines
of a block together.
-/

namespace FormCompiler.Flow

/-! ## Words -/

/-- Whether the numbers of a block fit. -/
structure Block.Fits (b : Block) : Prop where
  params : ∀ v ∈ b.params, Fits32 v
  instrs : ∀ line ∈ b.body, line.instr.Fits
  spans : ∀ line ∈ b.body, ∀ span ∈ line.span, Fits32 span.start ∧ Fits32 span.stop
  terminator : b.terminator.Fits

namespace Read

variable {s s' : State} {text : List Char} {f g : Function} {vs ps : List VarId} {slots : List Slot}
    {loops : List LoopInfo} {blocks : List Block}

/-! ## Reading line by line -/

/-- Reading lines takes a state to another one, whatever lines come after. -/
def Reads (s : State) (ls : List (List Char)) (s' : State) : Prop :=
  ∀ (number : Nat) (rest : List (List Char)),
    lines s number (ls ++ rest) = lines s' (number + ls.length) rest

theorem Reads.nil (s : State) :
  Reads s [] s
  := by
  intro number rest
  rfl

theorem Reads.append {s'' : State} {ls ms : List (List Char)} (h : Reads s ls s') (h' : Reads s' ms s'') :
  Reads s (ls ++ ms) s''
  := by
  intro number rest
  rw [List.append_assoc, h, h', List.length_append, Nat.add_assoc]

/-- A line is read without the blanks around it. -/
theorem Reads.line {raw : List Char} (htrim : Text.trim raw = text) (hne : text ≠ []) (h : Read.line s text = .ok s') :
  Reads s [raw] s'
  := by
  intro number rest
  rw [List.singleton_append, lines]
  simp only [htrim]
  rw [if_neg (by simpa using hne), h]
  rfl

theorem isTight_of_ends {c : Char} (hc : Text.isBlank c = false) (hends : EndsTight (c :: text)) :
  Text.IsTight (c :: text)
  := by
  constructor
  · simpa using hc
  · intro d hd
    obtain ⟨e, hlast, he⟩ := hends
    obtain rfl : e = d := Option.some.inj (hlast.symm.trans hd)
    exact he

/-- A line that is indented is read without the indentation. -/
theorem Reads.indented {c : Char} (hc : Text.isBlank c = false) (hends : EndsTight (c :: text))
    (h : Read.line s (c :: text) = .ok s') :
  Reads s [' ' :: ' ' :: c :: text] s'
  := Reads.line (Text.trim_indent (isTight_of_ends hc hends)) (by simp) h

/-- Numbered items are read one after another. -/
theorem reads_zipIdx
    {items : List α} (ls : α → Nat → List (List Char)) (state : List α → State)
    (h : ∀ done item rest, items = done ++ item :: rest →
      Reads (state done) (ls item done.length) (state (done ++ [item]))) :
  Reads (state []) (items.zipIdx.flatMap fun (item, i) => ls item i) (state items)
  := by
  have hall : ∀ done rest, items = done ++ rest →
      Reads (state done) ((rest.zipIdx done.length).flatMap fun (item, i) => ls item i)
        (state items) := by
    intro done rest hitems
    induction rest generalizing done with
    | nil =>
      rw [hitems, List.append_nil]
      apply Reads.nil
    | cons item rest ih =>
      have hrest := ih (done ++ [item]) (by rw [hitems, List.append_assoc, List.singleton_append])
      rw [List.length_append, List.length_singleton] at hrest
      rw [List.zipIdx_cons, List.flatMap_cons]
      exact (h done item rest hitems).append hrest
  exact hall [] items rfl

/-- Items are read one after another. -/
theorem reads_flatMap
    {items : List α} (ls : α → List (List Char)) (state : List α → State)
    (h : ∀ done item rest, items = done ++ item :: rest →
      Reads (state done) (ls item) (state (done ++ [item]))) :
  Reads (state []) (items.flatMap ls) (state items)
  := by
  have hread := reads_zipIdx (fun item _ => ls item) state h
  have hitems : items.zipIdx.flatMap (fun p => ls p.1) = items.flatMap ls := by
    rw [← List.flatMap_map, List.zipIdx_map_fst]
  rwa [hitems] at hread

/-! ## The header -/

/-- What is read of a function up to some of its slots, loops and blocks. -/
def part (f : Function) (slots : List Slot) (loops : List LoopInfo) (blocks : List Block) :
    Function :=
  ⟨f.name, [], f.result, blocks, f.entry, [], slots, loops, f.flags⟩

theorem reads_header (hname : IsPlainName f.name) (hresult : f.result.Fits) (hentry : Fits32 f.entry) :
  Reads .initial [f.header.toList] ⟨.header, part f [] [] [], []⟩
  := by
  have hends : EndsTight f.header.toList := by
    rw [toList_header, ← List.append_assoc]
    apply EndsTight.append
    exact ⟨'\x7b', rfl, by decide⟩
  have hcons : ∃ text, f.header.toList = 'f' :: text := ⟨_, toList_header f⟩
  obtain ⟨text, htext⟩ := hcons
  rw [htext] at hends
  have htight := isTight_of_ends (by decide) hends
  rw [← htext] at htight
  apply Reads.line (Text.trim_eq_self htight)
  · simp [htext]
  · rw [Read.line, State.initial]
    simp only
    rw [header_text hname hresult hentry]
    rfl

/-- A line between the header and the blocks. -/
theorem line_header {c : Char} (hstage : s.stage = .header) (hbrace : c ≠ '\x7d') (hblock : c ≠ 'b') :
  line s (c :: text) = headerItem s (c :: text)
  := by
  unfold line
  simp only [hstage]
  rw [if_neg (by simp [hbrace]), if_neg]
  simp [Text.after?, Ne.symm hblock]

theorem headerItem_slot
    (f : Function) (slots : List Slot) {slot : Slot} (types : List (VarId × ValueType))
    (hcount : Fits32 slots.length) (hname : ∀ name ∈ slot.name, IsPlainName name)
    (htype : slot.type.Fits) :
  headerItem ⟨.header, part f slots [] [], types⟩
      ("slot $".toList ++ ((Nat.toDigits 10 slots.length ++
        slot.name.elim [] fun name => ' ' :: name.toList) ++ ':' :: ' ' :: slot.type.text.toList))
    = .ok ⟨.header, part f (slots ++ [slot]) [] [], types⟩
  := by
  obtain ⟨name?, type⟩ := slot
  have hcolon : ':' ∉ Nat.toDigits 10 slots.length := Text.not_mem_toDigits (by decide)
  have hspace : ' ' ∉ Nat.toDigits 10 slots.length := Text.not_mem_toDigits (by decide)
  have htype' := type_typeText htype
  unfold headerItem
  rw [Text.after?_append]
  cases name? with
  | none =>
    have hsplit : splitAt? ": " (Nat.toDigits 10 slots.length ++ ':' :: ' ' :: type.text.toList)
        = some (Nat.toDigits 10 slots.length, type.text.toList) := Text.splitFirst?_append hcolon _
    have hnone : splitAt? " " (Nat.toDigits 10 slots.length) = none :=
      Text.splitFirst?_eq_none hspace
    simp only [Option.elim_none, List.append_nil, hsplit, hnone, required, bind, Except.bind, htype',
      nat32_toDigits hcount]
    exact if_pos rfl
  | some name =>
    have hplain : ':' ∉ name.toList := fun hmem => ((hname name rfl).2 _ hmem).2 (by simp)
    have hsplit : splitAt? ": " (Nat.toDigits 10 slots.length ++ ' ' :: name.toList ++
          ':' :: ' ' :: type.text.toList)
        = some (Nat.toDigits 10 slots.length ++ ' ' :: name.toList, type.text.toList) :=
      Text.splitFirst?_append (c := ':') (by simp [hcolon, hplain]) _
    have hsome : splitAt? " " (Nat.toDigits 10 slots.length ++ ' ' :: name.toList)
        = some (Nat.toDigits 10 slots.length, name.toList) := Text.splitFirst?_append hspace _
    simp only [Option.elim_some, hsplit, hsome, required, bind, Except.bind, htype',
      nat32_toDigits hcount, String.ofList_toList]
    exact if_pos rfl

theorem headerItem_loop
    (f : Function) (slots : List Slot) (loops : List LoopInfo) {l : LoopInfo}
    (types : List (VarId × ValueType)) (h : l.Fits) :
  headerItem ⟨.header, part f slots loops [], types⟩
      ("loop ".toList ++ [' '].intercalate (l.fields.map fieldText))
    = .ok ⟨.header, part f slots (loops ++ [l]) [], types⟩
  := by
  have hslot : Text.after? "slot $".toList
      ("loop ".toList ++ [' '].intercalate (l.fields.map fieldText)) = none := by
    simp [Text.after?]
  unfold headerItem
  simp only [hslot, Text.after?_append, loop_fields h]
  rfl

/-! ## Types of variables -/

/-- The types of variables, the last one first. -/
def typesOf (f : Function) (vs : List VarId) : List (VarId × ValueType) :=
  (vs.map fun v => (v, f.varType v)).reverse

theorem lookup_typesOf {v : VarId} :
  (typesOf f vs).lookup v = if v ∈ vs then some (f.varType v) else none
  := by
  rw [typesOf, ← List.map_reverse]
  have hmem : v ∈ vs ↔ v ∈ vs.reverse := List.mem_reverse.symm
  rw [if_congr hmem rfl rfl]
  generalize vs.reverse = ws
  induction ws with
  | nil => rfl
  | cons w ws ih =>
    rw [List.map_cons, List.lookup_cons, ih]
    by_cases hw : v = w
    · simp [hw]
    · simp [hw, beq_eq_false_iff_ne.mpr hw]

/-- A variable that has no type yet is given one. -/
theorem define_typesOf {v : VarId} (stage : Stage) (h : v ∉ vs) :
  define ⟨stage, g, typesOf f vs⟩ v (f.varType v) = .ok ⟨stage, g, typesOf f (vs ++ [v])⟩
  := by
  unfold define
  rw [lookup_typesOf, if_neg h, if_neg (by simp)]
  simp [typesOf, pure, Except.pure]

theorem toList_typedText (v : VarId) (t : ValueType) :
  (typedText v t).toList = (varText v).toList ++ ':' :: ' ' :: t.text.toList
  := by
  simp [typedText]

/-- A variable and its type are found. -/
theorem splitAt?_typedText (v : VarId) (t : ValueType) :
  splitAt? ": " (typedText v t).toList = some ((varText v).toList, t.text.toList)
  := by
  rw [toList_typedText]
  exact Text.splitFirst?_append (not_mem_varText (by decide) (by decide)) _

theorem headerItem_dead {v : VarId} (h : v ∉ vs) (hv : Fits32 v) (htype : (f.varType v).Fits) :
  headerItem ⟨.header, g, typesOf f vs⟩ ("dead ".toList ++ (typedText v (f.varType v)).toList)
    = .ok ⟨.header, g, typesOf f (vs ++ [v])⟩
  := by
  have hslot : Text.after? "slot $".toList
      ("dead ".toList ++ (typedText v (f.varType v)).toList) = none := by
    simp [Text.after?]
  have hloop : Text.after? "loop ".toList
      ("dead ".toList ++ (typedText v (f.varType v)).toList) = none := by
    simp [Text.after?]
  unfold headerItem
  simp only [hslot, hloop, Text.after?_append, splitAt?_typedText, required, bind, Except.bind,
    var_varText hv, type_typeText htype, define_typesOf .header h]

/-! ## Blocks -/

theorem params_typedText (stage : Stage) (hnodup : (vs ++ ps).Nodup) (hfits : ∀ p ∈ ps, Fits32 p)
    (htypes : ∀ p ∈ ps, (f.varType p).Fits) :
  params ⟨stage, g, typesOf f vs⟩ (ps.map fun p => (typedText p (f.varType p)).toList)
    = .ok (ps, ⟨stage, g, typesOf f (vs ++ ps)⟩)
  := by
  induction ps generalizing vs with
  | nil =>
    rw [List.append_nil]
    rfl
  | cons p ps ih =>
    have hnot : p ∉ vs := by
      intro hmem
      exact (List.nodup_append.mp hnodup).2.2 p hmem p (by simp) rfl
    rw [← List.singleton_append, ← List.append_assoc] at hnodup
    have hrest := ih hnodup (fun q hq => hfits q (by simp [hq])) (fun q hq => htypes q (by simp [hq]))
    rw [List.map_cons, params]
    simp only [splitAt?_typedText, required, bind, Except.bind, var_varText (hfits p (by simp)),
      type_typeText (htypes p (by simp)), define_typesOf stage hnot, hrest]
    rw [List.append_assoc]
    rfl

theorem isItem_typedText (v : VarId) (t : ValueType) :
  IsItem (typedText v t).toList
  := by
  rw [toList_typedText]
  refine ⟨?_, ?_, by simp [toList_varText]⟩
  · apply (isItem_varText v).closed.append
    exact IsClosed.append (s := [':', ' ']) (IsClosed.of_plain (by simp [isListMark]))
      (isClosed_typeText t le_rfl)
  · rw [toList_varText, List.cons_append]
    apply isTight_of_ends (by decide)
    have hends := (endsTight_typeText t).append ('%' :: (Nat.toDigits 10 v ++ [':', ' ']))
    simpa using hends

/-- The list of the parameters of a block. -/
def paramsText (f : Function) (ps : List VarId) : List Char :=
  [',', ' '].intercalate (ps.map fun p => (typedText p (f.varType p)).toList)

/-- The first line of a block. -/
def blockLineText (f : Function) (id : BlockId) (ps : List VarId) : List Char :=
  (blockText id).toList ++ ((if ps = [] then [] else '(' :: (paramsText f ps ++ [')'])) ++ [':'])

theorem listItems_paramsText (f : Function) (ps : List VarId) :
  listItems (paramsText f ps) = ps.map fun p => (typedText p (f.varType p)).toList
  := by
  apply listItems_intercalate
  intro item hitem
  obtain ⟨p, -, rfl⟩ := List.mem_map.mp hitem
  apply isItem_typedText

/-- The first line of a block is read, and the block has no instructions yet. -/
theorem blockHeader_text (stage : Stage) (hcount : Fits32 g.blocks.length) (hnodup : (vs ++ ps).Nodup)
    (hfits : ∀ p ∈ ps, Fits32 p) (htypes : ∀ p ∈ ps, (f.varType p).Fits) :
  blockHeader ⟨stage, g, typesOf f vs⟩ (blockLineText f g.blocks.length ps)
    = .ok ⟨.block false, { g with blocks := g.blocks ++ [⟨ps, [], .unreachable⟩] },
        typesOf f (vs ++ ps)⟩
  := by
  have hopen : '(' ∉ (blockText g.blocks.length).toList := not_mem_blockText (by decide) (by decide)
  have hparams := params_typedText (g := g) stage hnodup hfits htypes
  rw [← listItems_paramsText] at hparams
  unfold blockHeader blockLineText
  rw [← List.append_assoc, Text.before?_append]
  by_cases hps : ps = []
  · have hnone : splitAt? "(" (blockText g.blocks.length).toList = none :=
      Text.splitFirst?_eq_none hopen
    subst hps
    simp [paramsText] at hparams
    simp [required, bind, Except.bind, hnone, pure, Except.pure, hcount, hparams]
  · have hsome : splitAt? "(" ((blockText g.blocks.length).toList ++ '(' :: (paramsText f ps ++ [')']))
        = some ((blockText g.blocks.length).toList, paramsText f ps ++ [')']) :=
      Text.splitFirst?_append hopen _
    simp [hps, required, bind, Except.bind, hsome, pure, Except.pure, hcount, hparams]

/-- The block that is being read is the last one. -/
theorem modifyLast_append (stage : Stage) (b : Block) (types : List (VarId × ValueType)) (change : Block → Block) :
  modifyLast ⟨stage, part f slots loops (blocks ++ [b]), types⟩ change
    = ⟨stage, part f slots loops (blocks ++ [change b]), types⟩
  := by
  have hmodify : (blocks ++ [b]).modify ((blocks ++ [b]).length - 1) change = blocks ++ [change b] := by
    rw [List.length_append, List.length_singleton, Nat.add_sub_cancel]
    simp [List.modify_eq_take_drop]
  simp only [modifyLast, Function.modifyBlock, part, hmodify]

/-- The line of an instruction, without its indentation. -/
def instrText (f : Function) (instr : Instr) : List Char :=
  match instr.def? with
  | some v => (typedText v (f.varType v)).toList ++ ' ' :: '=' :: ' ' :: instr.operationText.toList
  | none => instr.operationText.toList

/-- The line of an instruction with its span. -/
def lineText (f : Function) (line : Line) : List Char :=
  match line.span with
  | some span => instrText f line.instr ++ ' ' :: '@' :: span.text.toList
  | none => instrText f line.instr

theorem toList_lineText (f : Function) (line : Line) :
  (line.text f.varType).toList = lineText f line
  := by
  have hinstr : (line.instr.text f.varType).toList = instrText f line.instr := by
    unfold Instr.text instrText
    cases line.instr.def? with
    | none => rfl
    | some v => simp
  unfold Line.text lineText
  cases line.span with
  | none => exact hinstr
  | some span => simp [hinstr]

theorem isLineText_instrText (f : Function) {instr : Instr} (h : instr.IsPlain) :
  IsLineText (instrText f instr)
  := by
  have hoperation := isLineText_operationText h
  unfold instrText
  cases instr.def? with
  | none => exact hoperation
  | some v =>
    have hchars : ∀ c : Char, c.isDigit = false → c ≠ '%' → c ≠ ':' → c ∉ typeChars →
        c ∉ (typedText v (f.varType v)).toList := by
      intro c hdigit hpercent hcolon hc
      have hspace : c ≠ ' ' := by
        rintro rfl
        exact hc (by decide)
      simp [toList_typedText, not_mem_varText hdigit hpercent, hcolon, hspace,
        not_mem_typeText hdigit hc]
    have hlead := hoperation.append
      ((typedText v (f.varType v)).toList ++ [' ', '=', ' '])
      (by
        simp only [List.mem_append, not_or]
        exact ⟨⟨hchars '\n' (by decide) (by decide) (by decide) (by decide), by decide⟩,
          ⟨hchars '@' (by decide) (by decide) (by decide) (by decide), by decide⟩,
          ⟨hchars '.' (by decide) (by decide) (by decide) (by decide), by decide⟩⟩)
    simpa using hlead

/-- The span of a line is told from its instruction. -/
theorem splitSpan_lineText {line : Line} (hplain : line.instr.IsPlain)
    (hspan : ∀ span ∈ line.span, Fits32 span.start ∧ Fits32 span.stop) :
  splitSpan (lineText f line) = (instrText f line.instr, line.span)
  := by
  unfold lineText
  cases hline : line.span with
  | none => exact splitSpan_eq_self (isLineText_instrText f hplain).span
  | some span =>
    obtain ⟨hstart, hstop⟩ := hspan span hline
    exact splitSpan_append hstart hstop _

/-- The words that start an instruction without a destination. -/
def effectWords : List String :=
  ["call", "tail", "store", "vstore", "bounds_check", "free", "release"]

theorem effect_word {instr : Instr} (h : instr.def? = none) :
  ∃ op ∈ effectWords, ∃ rest, instr.operationText.toList = op.toList ++ ' ' :: rest
  := by
  cases instr with
  | call dst callee args convention isTail =>
    cases isTail with
    | true => exact ⟨"tail", by decide, _, by simp [Instr.operationText]; rfl⟩
    | false => exact ⟨"call", by decide, _, by simp [Instr.operationText]; rfl⟩
  | store slot value | storeElement slot index value =>
    exact ⟨"store", by decide, _, by simp [Instr.operationText]; rfl⟩
  | boundsCheck index length =>
    exact ⟨"bounds_check", by decide, _, by simp [Instr.operationText]; rfl⟩
  | free pointer => exact ⟨"free", by decide, _, by simp [Instr.operationText]; rfl⟩
  | release pointer => exact ⟨"release", by decide, _, by simp [Instr.operationText]; rfl⟩
  | storeLanes slot start value => exact ⟨"vstore", by decide, _, by simp [Instr.operationText]; rfl⟩
  | _ => simp [Instr.def?] at h

/-- A line that starts with another word is no terminator. -/
theorem terminator_eq_none
    {op : String} (hop : op ∉ ["ret", "unreachable", "jump", "branch"]) (hspace : ' ' ∉ op.toList)
    (rest : List Char) :
  terminator (op.toList ++ ' ' :: rest) = .ok none
  := by
  simp only [List.mem_cons, List.not_mem_nil, or_false, not_or] at hop
  rw [terminator, splitOp_word hspace]
  simp only
  split <;> simp_all
  rfl

theorem terminator_instrText (f : Function) (instr : Instr) (tail : List Char) :
  terminator (instrText f instr ++ tail) = .ok none
  := by
  unfold instrText
  cases hdef : instr.def? with
  | none =>
    obtain ⟨op, hop, rest, hrest⟩ := effect_word hdef
    have hwords : effectWords.all (fun op =>
        decide (op ∉ ["ret", "unreachable", "jump", "branch"] ∧ ' ' ∉ op.toList)) = true := by decide
    obtain ⟨hnot, hspace⟩ := of_decide_eq_true (List.all_eq_true.mp hwords op hop)
    rw [hrest, List.append_assoc, List.cons_append, terminator_eq_none hnot hspace]
  | some v =>
    -- the first word of a definition is its variable
    set op := String.ofList ((varText v).toList ++ [':']) with hop
    have hhead : op.toList = '%' :: (Nat.toDigits 10 v ++ [':']) := by
      simp [hop, toList_varText]
    have hnot : op ∉ ["ret", "unreachable", "jump", "branch"] := by
      intro hmem
      simp only [List.mem_cons, List.not_mem_nil, or_false] at hmem
      rcases hmem with h | h | h | h <;> rw [h] at hhead <;> simp at hhead
    have hspace : ' ' ∉ op.toList := by
      simp [hhead, Text.not_mem_toDigits (c := ' ') (by decide)]
    have htext : (typedText v (f.varType v)).toList ++ ' ' :: '=' :: ' ' :: instr.operationText.toList ++ tail
        = op.toList ++ ' ' :: ((f.varType v).text.toList ++
          ' ' :: '=' :: ' ' :: (instr.operationText.toList ++ tail)) := by
      simp [hhead, toList_typedText, toList_varText]
    simp only [htext]
    exact terminator_eq_none hnot hspace _

theorem terminator_lineText (f : Function) (line : Line) :
  terminator (lineText f line) = .ok none
  := by
  unfold lineText
  cases line.span with
  | none => simpa using terminator_instrText f line.instr []
  | some span => apply terminator_instrText

/-- A definition is cut at its equals sign. -/
theorem splitAt?_definition (f : Function) (v : VarId) (text : List Char) :
  splitAt? " = " ((typedText v (f.varType v)).toList ++ ' ' :: '=' :: ' ' :: text)
    = some ((typedText v (f.varType v)).toList, text)
  := by
  have hequals : '=' ∉ (typedText v (f.varType v)).toList := by
    simp [toList_typedText, not_mem_varText (c := '=') (v := v) (by decide) (by decide),
      not_mem_typeText (c := '=') (by decide) (by decide) (f.varType v)]
  exact Text.splitFirst?_append_second (by decide) hequals text

/-- What has to hold of a line to be read back. -/
structure IsReadable (f : Function) (line : Line) : Prop where
  fits : line.instr.Fits
  plain : line.instr.IsPlain
  span : ∀ span ∈ line.span, Fits32 span.start ∧ Fits32 span.stop
  type : ∀ v ∈ line.instr.def?, Fits32 v ∧ (f.varType v).Fits
  const : ∀ dst c, line.instr = .set dst (.const c) → Verify.constHasType c (f.varType dst) = true

/-- The line of an instruction is read, and comes to the end of the block. -/
theorem blockLine_lineText (slots : List Slot) (loops : List LoopInfo) (blocks : List Block) (b : Block) {line : Line}
    (h : IsReadable f line) (hnew : ∀ v ∈ line.instr.def?, v ∉ vs) :
  blockLine ⟨.block false, part f slots loops (blocks ++ [b]), typesOf f vs⟩ (lineText f line)
    = .ok ⟨.block false, part f slots loops (blocks ++ [{ b with body := b.body ++ [line] }]),
        typesOf f (vs ++ line.instr.def?.toList)⟩
  := by
  rw [blockLine, terminator_lineText]
  simp only [bind, Except.bind, splitSpan_lineText h.plain h.span]
  cases hdef : line.instr.def? with
  | none =>
    have hhead : (instrText f line.instr).head? ≠ some '%' := by
      obtain ⟨op, hop, rest, hrest⟩ := effect_word hdef
      have hwords : effectWords.all (fun op => (op.toList ++ [' ']).head? != some '%') = true := by
        decide
      have hne := List.all_eq_true.mp hwords op hop
      simp only [instrText, hdef, hrest]
      simpa [List.head?_append] using hne
    have hread := effect_operationText hdef h.fits h.plain
    have htext : instrText f line.instr = line.instr.operationText.toList := by simp [instrText, hdef]
    rw [if_neg hhead, htext, hread]
    simp only [pure, Except.pure, modifyLast_append, Option.toList_none, List.append_nil]
  | some v =>
    obtain ⟨hv, htype⟩ := h.type v hdef
    have htext : instrText f line.instr
        = (typedText v (f.varType v)).toList ++ ' ' :: '=' :: ' ' :: line.instr.operationText.toList := by
      simp [instrText, hdef]
    have hhead : (instrText f line.instr).head? = some '%' := by
      simp [htext, toList_typedText, toList_varText]
    have hread := definition_operationText (t := f.varType v) hdef h.fits h.plain
      fun c hc => h.const v c hc
    rw [if_pos hhead, htext, splitAt?_definition]
    simp only [required, splitAt?_typedText, var_varText hv, type_typeText htype, hread,
      define_typesOf _ (hnew v hdef), pure, Except.pure, modifyLast_append, Option.toList_some]

theorem exists_cons_lineText (f : Function) (line : Line) :
  ∃ c text, lineText f line = c :: text ∧ Text.isBlank c = false ∧ c ≠ '\x7d'
  := by
  have hinstr : ∃ c text, instrText f line.instr = c :: text ∧ Text.isBlank c = false ∧ c ≠ '\x7d' := by
    unfold instrText
    cases hdef : line.instr.def? with
    | none =>
      obtain ⟨op, hop, rest, hrest⟩ := effect_word hdef
      simp only [hrest]
      simp only [effectWords, List.mem_cons, List.not_mem_nil, or_false] at hop
      rcases hop with rfl | rfl | rfl | rfl | rfl | rfl | rfl <;>
        exact ⟨_, _, rfl, by decide, by decide⟩
    | some v =>
      simp only [toList_typedText, toList_varText, List.cons_append]
      exact ⟨'%', _, rfl, by decide, by decide⟩
  obtain ⟨c, text, htext, hc⟩ := hinstr
  unfold lineText
  cases line.span with
  | none => exact ⟨c, text, htext, hc⟩
  | some span => exact ⟨c, _, by simp only [htext]; rfl, hc⟩

theorem endsTight_lineText (f : Function) {line : Line} (h : line.instr.IsPlain) :
  EndsTight (lineText f line)
  := by
  unfold lineText
  cases line.span with
  | none => exact (isLineText_instrText f h).ends
  | some span =>
    have hends := (endsTight_toDigits span.stop).append
      (instrText f line.instr ++ ' ' :: '@' :: (Nat.toDigits 10 span.start ++ ['.', '.']))
    simpa [toList_spanText] using hends

theorem reads_line {b : Block} {line : Line} (h : IsReadable f line) (hnew : ∀ v ∈ line.instr.def?, v ∉ vs) :
  Reads ⟨.block false, part f slots loops (blocks ++ [b]), typesOf f vs⟩
    [("  " ++ line.text f.varType).toList]
    ⟨.block false, part f slots loops (blocks ++ [{ b with body := b.body ++ [line] }]),
      typesOf f (vs ++ line.instr.def?.toList)⟩
  := by
  have hraw : ("  " ++ line.text f.varType).toList = ' ' :: ' ' :: lineText f line := by
    rw [String.toList_append, toList_lineText]
    rfl
  have hread := blockLine_lineText slots loops blocks b h hnew
  have hends := endsTight_lineText f h.plain
  obtain ⟨c, text, htext, hblank, hbrace⟩ := exists_cons_lineText f line
  rw [hraw]
  rw [htext] at hread hends ⊢
  apply Reads.indented hblank hends
  unfold Read.line
  simp only
  rw [if_neg (by simp [hbrace]), hread]

theorem isLineText_blockText (b : BlockId) :
  IsLineText (blockText b).toList
  := by
  rw [toList_blockText]
  apply (isLineText_toDigits b).append ['b', 'b']
  decide

theorem isLineText_terminator (t : Terminator) :
  IsLineText t.text.toList
  := by
  cases t with
  | ret value =>
    cases value with
    | none => exact ⟨by decide, ⟨'t', rfl, by decide⟩, .inl (by decide)⟩
    | some v =>
      simpa [Terminator.text] using (isLineText_varText v).append "ret ".toList (by decide)
  | jump target args =>
    have hblock : ∀ c : Char, c.isDigit = false → c ≠ 'b' → c ∉ (blockText target).toList :=
      fun _ => not_mem_blockText
    cases args with
    | nil =>
      simpa [Terminator.text] using
        (isLineText_blockText target).append "jump ".toList (by decide)
    | cons v args =>
      have hvars : ∀ c : Char, c.isDigit = false → c ≠ '%' → c ≠ ',' → c ≠ ' ' →
          c ∉ (varsText (v :: args)).toList := fun _ => not_mem_varsText
      simpa [Terminator.text] using IsLineText.concat (c := ')') (by decide)
        ("jump ".toList ++ ((blockText target).toList ++ '(' :: (varsText (v :: args)).toList))
        (by simp [hblock, hvars])
  | branch test thenBlock elseBlock =>
    have hvar : ∀ c : Char, c.isDigit = false → c ≠ '%' → c ∉ (varText test).toList :=
      fun _ => not_mem_varText
    have hblock : ∀ c : Char, c.isDigit = false → c ≠ 'b' → c ∉ (blockText thenBlock).toList :=
      fun _ => not_mem_blockText
    simpa [Terminator.text] using (isLineText_blockText elseBlock).append
      ("branch ".toList ++ ((varText test).toList ++ ',' :: ' ' ::
        ((blockText thenBlock).toList ++ [',', ' ']))) (by simp [hvar, hblock])
  | unreachable => exact ⟨by decide, ⟨'e', rfl, by decide⟩, .inl (by decide)⟩

theorem exists_cons_terminator (t : Terminator) :
  ∃ c text, t.text.toList = c :: text ∧ Text.isBlank c = false ∧ c ≠ '\x7d'
  := by
  cases t with
  | ret value =>
    cases value with
    | none => exact ⟨'r', _, rfl, by decide, by decide⟩
    | some v => exact ⟨'r', _, by simp [Terminator.text]; rfl, by decide, by decide⟩
  | jump target args =>
    cases args with
    | nil | cons v args => exact ⟨'j', _, by simp [Terminator.text]; rfl, by decide, by decide⟩
  | branch test thenBlock elseBlock =>
    exact ⟨'b', _, by simp [Terminator.text]; rfl, by decide, by decide⟩
  | unreachable => exact ⟨'u', _, rfl, by decide, by decide⟩

theorem reads_terminator {b : Block} {t : Terminator} (types : List (VarId × ValueType)) (h : t.Fits) :
  Reads ⟨.block false, part f slots loops (blocks ++ [b]), types⟩ [("  " ++ t.text).toList]
    ⟨.block true, part f slots loops (blocks ++ [{ b with terminator := t }]), types⟩
  := by
  have hraw : ("  " ++ t.text).toList = ' ' :: ' ' :: t.text.toList := by
    rw [String.toList_append]
    rfl
  have hread := terminator_text h
  have hends := (isLineText_terminator t).ends
  obtain ⟨c, text, htext, hblank, hbrace⟩ := exists_cons_terminator t
  rw [hraw]
  rw [htext] at hread hends ⊢
  apply Reads.indented hblank hends
  unfold Read.line
  simp only
  rw [if_neg (by simp [hbrace]), blockLine, hread]
  simp only [bind, Except.bind, pure, Except.pure, modifyLast_append]

/-- The lines of a block without the first and the last one. -/
theorem reads_body {body : List Line} (h : ∀ line ∈ body, IsReadable f line)
    (hnodup : (vs ++ body.filterMap (·.instr.def?)).Nodup) :
  Reads ⟨.block false, part f slots loops (blocks ++ [⟨ps, [], .unreachable⟩]), typesOf f vs⟩
    (body.flatMap fun line => [("  " ++ line.text f.varType).toList])
    ⟨.block false, part f slots loops (blocks ++ [⟨ps, body, .unreachable⟩]),
      typesOf f (vs ++ body.filterMap (·.instr.def?))⟩
  := by
  have hread := @reads_flatMap Line body (fun line => [("  " ++ line.text f.varType).toList])
    (fun done => ⟨.block false, part f slots loops (blocks ++ [⟨ps, done, .unreachable⟩]),
      typesOf f (vs ++ done.filterMap (·.instr.def?))⟩)
  simp only [List.filterMap_nil, List.append_nil] at hread
  apply hread
  intro done line rest hbody
  have hdefs : (done ++ [line]).filterMap (fun l => l.instr.def?)
      = done.filterMap (fun l => l.instr.def?) ++ line.instr.def?.toList := by
    rw [List.filterMap_append]
    cases hdef : line.instr.def? <;> simp [hdef]
  rw [hdefs, ← List.append_assoc]
  apply reads_line (h line (by simp [hbody]))
  intro v hv hmem
  rw [hbody, ← List.singleton_append, ← List.append_assoc, List.filterMap_append, hdefs,
    ← List.append_assoc, ← List.append_assoc] at hnodup
  have hleft := (List.nodup_append.mp hnodup).1
  exact (List.nodup_append.mp hleft).2.2 v hmem v (by simpa using hv) rfl

theorem map_toList_blockLines (f : Function) (id : BlockId) (b : Block) :
  (b.lines f.varType id).map String.toList
    = [blockLineText f id b.params] ++ ((b.body.flatMap fun line =>
        [("  " ++ line.text f.varType).toList]) ++ [("  " ++ b.terminator.text).toList])
  := by
  have hparams : (", ".intercalate (b.params.map fun p => typedText p (f.varType p))).toList
      = paramsText f b.params := by
    rw [String.toList_intercalate, List.map_map]
    rfl
  have hfirst : (blockText id ++ (if b.params.isEmpty then "" else "(" ++
        ", ".intercalate (b.params.map fun p => typedText p (f.varType p)) ++ ")") ++ ":").toList
      = blockLineText f id b.params := by
    unfold blockLineText
    rw [← hparams]
    generalize ", ".intercalate (b.params.map fun p => typedText p (f.varType p)) = params
    generalize blockText id = block
    by_cases hps : b.params = [] <;> simp [hps]
  unfold Block.lines
  rw [← List.map_eq_flatMap]
  simp only [List.map_cons, List.map_append, List.map_map, List.map_nil, hfirst, List.cons_append,
    List.nil_append]
  rfl

/-- A block is read after the header or after another block. -/
theorem reads_block {b : Block} {stage : Stage} (hstage : stage = .header ∨ stage = .block true)
    (hcount : Fits32 blocks.length) (hfits : b.Fits) (htypes : ∀ v ∈ b.params, (f.varType v).Fits)
    (hlines : ∀ line ∈ b.body, IsReadable f line) (hnodup : (vs ++ b.defs).Nodup) :
  Reads ⟨stage, part f slots loops blocks, typesOf f vs⟩
    ((b.lines f.varType blocks.length).map String.toList)
    ⟨.block true, part f slots loops (blocks ++ [b]), typesOf f (vs ++ b.defs)⟩
  := by
  have hdefs : b.defs = b.params ++ b.body.filterMap (·.instr.def?) := by
    rw [Block.defs, Block.instrs, List.filterMap_map]
    rfl
  rw [hdefs, ← List.append_assoc] at hnodup ⊢
  have hfirst : Reads ⟨stage, part f slots loops blocks, typesOf f vs⟩
      [blockLineText f blocks.length b.params]
      ⟨.block false, part f slots loops (blocks ++ [⟨b.params, [], .unreachable⟩]),
        typesOf f (vs ++ b.params)⟩ := by
    have hread := blockHeader_text (g := part f slots loops blocks) stage hcount
      (List.nodup_append.mp hnodup).1 hfits.params htypes
    have hends : EndsTight (blockLineText f blocks.length b.params) := by
      unfold blockLineText
      rw [← List.append_assoc]
      apply EndsTight.concat (by decide)
    have hcons : ∃ text, blockLineText f blocks.length b.params = 'b' :: 'b' :: text := by
      unfold blockLineText
      rw [toList_blockText]
      exact ⟨_, rfl⟩
    obtain ⟨text, htext⟩ := hcons
    change blockHeader _ (blockLineText f blocks.length b.params) = _ at hread
    rw [htext] at hread hends ⊢
    apply Reads.line (Text.trim_eq_self (isTight_of_ends (by decide) hends)) (by simp)
    have hblock : (Text.after? "bb".toList ('b' :: 'b' :: text)).isSome = true := by
      simp [Text.after?]
    rcases hstage with rfl | rfl
    · unfold Read.line
      simp only [hblock]
      rw [if_neg (by simp), if_pos trivial, hread]
      rfl
    · unfold Read.line
      simp only [hblock]
      rw [if_neg (by simp), if_pos trivial, hread]
      rfl
  rw [map_toList_blockLines]
  apply hfirst.append
  apply (reads_body hlines hnodup).append
  exact reads_terminator _ hfits.terminator

end Read

end FormCompiler.Flow
