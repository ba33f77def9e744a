import FormCompiler.Proofs.Flow.LineText

/-!
# Headers read back

The lines before the first block: the header of the function with its flags, the slots, and the
loops with their counters. The last words of the header are its entry block and its flags, and the
line of a loop is a list of fields.
-/

namespace FormCompiler.Text

/-! ## Words -/

/-- A text without blanks is one word. -/
theorem words_eq_singleton
    {word : List Char} (hne : word ≠ []) (h : ∀ c ∈ word, isBlank c = false) :
  words word = [word]
  := by
  induction word with
  | nil => contradiction
  | cons c word ih =>
    have hc := h c (by simp)
    cases word with
    | nil => simp [words, hc]
    | cons d word =>
      have hd := h d (by simp)
      have hrest := ih (by simp) fun e he => h e (by simp [he])
      rw [words, hrest]
      simp [hc, hd]

/-- The first word is found. -/
theorem words_append
    {word : List Char} (hne : word ≠ []) (h : ∀ c ∈ word, isBlank c = false) (rest : List Char) :
  words (word ++ ' ' :: rest) = word :: words rest
  := by
  have hspace : isBlank ' ' = true := by decide
  induction word with
  | nil => contradiction
  | cons c word ih =>
    have hc := h c (by simp)
    cases word with
    | nil => simp [words, hc, hspace]
    | cons d word =>
      have hd := h d (by simp)
      have hrest := ih (by simp) fun e he => h e (by simp [he])
      rw [List.cons_append] at hrest
      rw [List.cons_append, List.cons_append, words, hrest]
      simp [hc, hd]

/-- Words that were joined by blanks are found again. -/
theorem words_intercalate
    {ws : List (List Char)} (h : ∀ w ∈ ws, w ≠ [] ∧ ∀ c ∈ w, isBlank c = false) :
  words ([' '].intercalate ws) = ws
  := by
  induction ws with
  | nil => rfl
  | cons w ws ih =>
    obtain ⟨hne, hw⟩ := h w (by simp)
    cases ws with
    | nil => simpa using words_eq_singleton hne hw
    | cons next ws =>
      rw [List.intercalate_cons_cons, List.append_assoc, List.singleton_append, words_append hne hw,
        ih fun w hw => h w (by simp [hw])]

end FormCompiler.Text

namespace FormCompiler.Flow

/-! ## Words and names -/

/-- Whether the numbers of a counter fit. -/
structure Induction.Fits (i : Induction) : Prop where
  slot : Fits32 i.slot
  init : isInt64 i.init = true
  bound : isInt64 i.bound = true
  step : isInt64 i.step = true

/-- Whether the numbers of a loop fit. -/
structure LoopInfo.Fits (l : LoopInfo) : Prop where
  preheader : Fits32 l.preheader
  header : Fits32 l.header
  latch : Fits32 l.latch
  exit : Fits32 l.exit
  blocks : ∀ b ∈ l.blocks, Fits32 b
  induction : ∀ i ∈ l.induction, i.Fits

/-! ## Loops -/

/-- The fields of the counter of a loop. -/
def Induction.fields (i : Induction) : List (String × List Char) :=
  [("induction", (slotText i.slot).toList), ("init", (toString i.init).toList),
    ("cmp", i.cmp.mnemonic.toList), ("bound", (toString i.bound).toList),
    ("step", (toString i.step).toList)]

/-- The names of blocks between commas. -/
def blocksText (blocks : List BlockId) : List Char :=
  [','].intercalate (blocks.map fun b => (blockText b).toList)

/-- The fields of a loop. -/
def LoopInfo.fields (l : LoopInfo) : List (String × List Char) :=
  [("preheader", (blockText l.preheader).toList), ("header", (blockText l.header).toList),
    ("latch", (blockText l.latch).toList), ("exit", (blockText l.exit).toList),
    ("blocks", blocksText l.blocks)] ++ l.induction.elim [] Induction.fields

/-- The written form of a field. -/
def fieldText (field : String × List Char) : List Char := field.1.toList ++ '=' :: field.2

theorem toList_inductionText (i : Induction) :
  i.text.toList = ' ' :: [' '].intercalate (i.fields.map fieldText)
  := by
  unfold Induction.text Induction.fields
  generalize slotText i.slot = slot
  generalize toString i.init = init
  generalize toString i.bound = bound
  generalize toString i.step = step
  simp only [List.map_cons, List.map_nil, fieldText, List.intercalate_cons_cons,
    List.intercalate_singleton, String.toList_append, List.append_assoc]
  simp

theorem toList_loopText (l : LoopInfo) :
  l.text.toList = "  loop ".toList ++ [' '].intercalate (l.fields.map fieldText)
  := by
  have hblocks : blocksText l.blocks = (",".intercalate (l.blocks.map blockText)).toList := by
    rw [String.toList_intercalate, List.map_map]
    rfl
  unfold LoopInfo.text LoopInfo.fields
  rw [hblocks]
  generalize blockText l.preheader = preheader
  generalize blockText l.header = header
  generalize blockText l.latch = latch
  generalize blockText l.exit = exit
  generalize ",".intercalate (l.blocks.map blockText) = blocks
  cases l.induction with
  | none =>
    simp only [Option.elim_none, List.append_nil, List.map_cons, List.map_nil, fieldText,
      List.intercalate_cons_cons, List.intercalate_singleton, String.toList_append, List.append_assoc]
    simp
  | some i =>
    have hinduction := toList_inductionText i
    obtain ⟨first, rest, hfields⟩ : ∃ first rest, i.fields.map fieldText = first :: rest := ⟨_, _, rfl⟩
    simp only [Option.elim_some, String.toList_append, hinduction, hfields, List.map_cons,
      List.cons_append, List.nil_append, fieldText, List.intercalate_cons_cons, List.append_assoc]
    simp

namespace Read

variable {fields : List (String × List Char)}

theorem blocks_blocksText {bs : List BlockId} (h : ∀ b ∈ bs, Fits32 b) :
  ((Text.splitOn ',' (blocksText bs)).filter (!·.isEmpty)).mapM block = .ok bs
  := by
  have hread : ∀ bs : List BlockId, (∀ b ∈ bs, Fits32 b) →
      (bs.map fun b => (blockText b).toList).mapM block = .ok bs := by
    intro bs h
    induction bs with
    | nil => rfl
    | cons b bs ih =>
      rw [List.map_cons, List.mapM_cons, block_blockText (h b (by simp)),
        ih fun c hc => h c (by simp [hc])]
      rfl
  cases bs with
  | nil => rfl
  | cons b bs =>
    rw [blocksText, Text.splitOn_intercalate (by simp), List.filter_eq_self.mpr, hread _ h]
    · intro part hpart
      obtain ⟨c, -, rfl⟩ := List.mem_map.mp hpart
      simp [toList_blockText]
    · intro part hpart
      obtain ⟨c, -, rfl⟩ := List.mem_map.mp hpart
      apply not_mem_blockText (by decide) (by decide)

theorem numberField_eq {key : String} {n : Int} (h : fields.reverse.lookup key = some (toString n).toList)
    (hn : isInt64 n = true) :
  numberField fields key = .ok n
  := by
  have hread := Text.int64?_toString hn
  simp only [numberField, field, h, required, bind, Except.bind]
  rw [hread]

/-- The fields of a loop are found by their keys. -/
theorem mapM_fieldText (h : ∀ field ∈ fields, '=' ∉ field.1.toList) :
  (fields.map fieldText).mapM (fun word => do
      let (key, value) ← required (splitAt? "=" word) (.malformedField (String.ofList word))
      return (String.ofList key, value)) = (.ok fields : Result (List (String × List Char)))
  := by
  induction fields with
  | nil => rfl
  | cons field fields ih =>
    have hsplit : splitAt? "=" (fieldText field) = some (field.1.toList, field.2) :=
      Text.splitFirst?_append (h field (by simp)) _
    rw [List.map_cons, List.mapM_cons, ih fun f hf => h f (by simp [hf]), hsplit]
    simp [required, bind, Except.bind, pure, Except.pure]

end Read

/-! The keys and the values of the fields have no blanks. -/

/-- Whether a text has no blanks. -/
def IsWord (text : List Char) : Prop := ∀ c ∈ text, Text.isBlank c = false

theorem IsWord.append {s t : List Char} (hs : IsWord s) (ht : IsWord t) :
  IsWord (s ++ t)
  := by
  intro c hc
  rcases List.mem_append.mp hc with hc | hc
  · exact hs c hc
  · exact ht c hc

theorem isWord_of_all {text : List Char} (h : (text.all fun c => !Text.isBlank c) = true) :
  IsWord text
  := by
  intro c hc
  simpa using List.all_eq_true.mp h c hc

theorem isWord_toDigits (n : Nat) :
  IsWord (Nat.toDigits 10 n)
  := by
  intro c hc
  apply Read.isBlank_of_isDigit
  apply Nat.isDigit_of_mem_toDigits (by decide) (by decide) hc

theorem isWord_blockText (b : BlockId) :
  IsWord (blockText b).toList
  := by
  rw [toList_blockText]
  apply IsWord.append (s := ['b', 'b']) (isWord_of_all (by decide)) (isWord_toDigits b)

theorem isWord_slotText (s : SlotId) :
  IsWord (slotText s).toList
  := by
  rw [toList_slotText]
  apply IsWord.append (s := ['$']) (isWord_of_all (by decide)) (isWord_toDigits s)

theorem isWord_toString (n : Int) :
  IsWord (toString n).toList
  := by
  rw [Text.toList_toString_int]
  split
  · apply IsWord.append (s := ['-']) (isWord_of_all (by decide)) (isWord_toDigits _)
  · apply isWord_toDigits

theorem isWord_blocksText (bs : List BlockId) :
  IsWord (blocksText bs)
  := by
  apply Text.forall_mem_intercalate
  · simp only [List.forall_mem_singleton]
    decide
  · intro part hpart
    obtain ⟨b, -, rfl⟩ := List.mem_map.mp hpart
    apply isWord_blockText

/-- Whether a field is written as a word that is cut at its first equals sign. -/
def IsField (field : String × List Char) : Prop :=
  '=' ∉ field.1.toList ∧ IsWord (fieldText field)

theorem isField_of_isWord
    {key : String} {value : List Char}
    (hkey : (key.toList.all fun c => !Text.isBlank c && c != '=') = true) (hvalue : IsWord value) :
  IsField (key, value)
  := by
  simp only [List.all_eq_true, Bool.and_eq_true, Bool.not_eq_true', bne_iff_ne] at hkey
  constructor
  · intro hmem
    exact (hkey _ hmem).2 rfl
  · apply IsWord.append (fun c hc => (hkey c hc).1)
    exact IsWord.append (s := ['=']) (isWord_of_all (by decide)) hvalue

theorem isField_fields (l : LoopInfo) :
  ∀ field ∈ l.fields, IsField field
  := by
  have hinduction : ∀ i : Induction, ∀ field ∈ i.fields, IsField field := by
    intro i
    have hcmp : IsWord i.cmp.mnemonic.toList := by
      apply isWord_of_all
      cases i.cmp <;> decide
    simp only [Induction.fields, List.forall_mem_cons]
    refine ⟨isField_of_isWord (by decide) (isWord_slotText _),
      isField_of_isWord (by decide) (isWord_toString _), isField_of_isWord (by decide) hcmp,
      isField_of_isWord (by decide) (isWord_toString _),
      isField_of_isWord (by decide) (isWord_toString _), by simp⟩
  rw [LoopInfo.fields, List.forall_mem_append]
  constructor
  · simp only [List.forall_mem_cons]
    refine ⟨isField_of_isWord (by decide) (isWord_blockText _),
      isField_of_isWord (by decide) (isWord_blockText _),
      isField_of_isWord (by decide) (isWord_blockText _),
      isField_of_isWord (by decide) (isWord_blockText _),
      isField_of_isWord (by decide) (isWord_blocksText _), by simp⟩
  · cases l.induction with
    | none => simp
    | some i => exact hinduction i

namespace Read

theorem induction_none {fields : List (String × List Char)} (h : fields.lookup "induction" = none) :
  induction fields = .ok none
  := by
  simp [induction, h, pure, Except.pure]

/-- A counter is read from its fields. -/
theorem induction_fields
    {i : Induction} (before : List (String × List Char)) (h : i.Fits)
    (hbefore : (before ++ i.fields).lookup "induction" ≠ none) :
  induction (before ++ i.fields) = .ok (some i)
  := by
  have hfield : ∀ key value, i.fields.reverse.lookup key = some value →
      (before ++ i.fields).reverse.lookup key = some value := by
    intro key value hvalue
    rw [List.reverse_append, List.lookup_append, hvalue]
    rfl
  have hslot : field (before ++ i.fields) "induction" = .ok (slotText i.slot).toList := by
    rw [field, hfield "induction" (slotText i.slot).toList (by simp [Induction.fields, List.lookup])]
    rfl
  have hcmp : field (before ++ i.fields) "cmp" = .ok i.cmp.mnemonic.toList := by
    rw [field, hfield "cmp" i.cmp.mnemonic.toList (by simp [Induction.fields, List.lookup])]
    rfl
  have hinit := numberField_eq (hfield "init" (toString i.init).toList
    (by simp [Induction.fields, List.lookup])) h.init
  have hbound := numberField_eq (hfield "bound" (toString i.bound).toList
    (by simp [Induction.fields, List.lookup])) h.bound
  have hstep := numberField_eq (hfield "step" (toString i.step).toList
    (by simp [Induction.fields])) h.step
  have hsome : ((before ++ i.fields).lookup "induction").isNone = false := by
    cases hlookup : (before ++ i.fields).lookup "induction" with
    | none => contradiction
    | some value => rfl
  simp [induction, hsome, hslot, hcmp, required, h.slot, hinit, hbound, hstep, ofMnemonic?_mnemonic,
    bind, Except.bind, pure, Except.pure]

/-- A loop is read from its fields. -/
theorem loop_fields {l : LoopInfo} (h : l.Fits) :
  loop ([' '].intercalate (l.fields.map fieldText)) = .ok l
  := by
  have hwords : Text.words ([' '].intercalate (l.fields.map fieldText)) = l.fields.map fieldText := by
    apply Text.words_intercalate
    intro word hword
    obtain ⟨field, hmem, rfl⟩ := List.mem_map.mp hword
    exact ⟨by simp [fieldText], (isField_fields l field hmem).2⟩
  have hfields := mapM_fieldText fun field hmem => (isField_fields l field hmem).1
  have hinduction : induction l.fields = .ok l.induction := by
    cases hcounter : l.induction with
    | none =>
      apply induction_none
      simp [LoopInfo.fields, hcounter, List.lookup]
    | some i =>
      have hread := induction_fields (i := i)
        [("preheader", (blockText l.preheader).toList),
          ("header", (blockText l.header).toList), ("latch", (blockText l.latch).toList),
          ("exit", (blockText l.exit).toList), ("blocks", blocksText l.blocks)]
        (h.induction i hcounter) (by simp [Induction.fields])
      rw [← hread, LoopInfo.fields, hcounter, Option.elim_some]
  have hfield : ∀ key value,
      (l.induction.elim [] Induction.fields).reverse.lookup key = none →
      [("blocks", blocksText l.blocks), ("exit", (blockText l.exit).toList),
        ("latch", (blockText l.latch).toList), ("header", (blockText l.header).toList),
        ("preheader", (blockText l.preheader).toList)].lookup key = some value →
      field l.fields key = .ok value := by
    intro key value hnone hvalue
    rw [field, LoopInfo.fields, List.reverse_append, List.lookup_append, hnone, Option.none_or]
    simp only [List.reverse_cons, List.reverse_nil, List.nil_append, List.cons_append, hvalue, required]
  have hnone : ∀ key, key ∉ ["induction", "init", "cmp", "bound", "step"] →
      (l.induction.elim [] Induction.fields).reverse.lookup key = none := by
    intro key hkey
    simp only [List.mem_cons, List.not_mem_nil, or_false, not_or] at hkey
    cases l.induction with
    | none => rfl
    | some i => simp [Induction.fields, List.lookup_eq_none_iff, hkey]
  have hblocks := hfield "blocks" (blocksText l.blocks) (hnone _ (by decide)) (by simp [List.lookup])
  have hexit := hfield "exit" (blockText l.exit).toList (hnone _ (by decide)) (by simp [List.lookup])
  have hlatch := hfield "latch" (blockText l.latch).toList (hnone _ (by decide)) (by simp [List.lookup])
  have hheader := hfield "header" (blockText l.header).toList (hnone _ (by decide))
    (by simp [List.lookup])
  have hpreheader := hfield "preheader" (blockText l.preheader).toList (hnone _ (by decide))
    (by simp [List.lookup])
  rw [loop, hwords, hfields]
  simp [hblocks, hexit, hlatch, hheader, hpreheader, hinduction,
    blocks_blocksText h.blocks, h.exit, h.latch, h.header, h.preheader, bind, Except.bind, pure, Except.pure]

/-! ## The header of a function -/

/-- A type is no attribute. -/
theorem attributes_type (flags : Flags) (entry : BlockId) (t : ValueType) (bound : Nat) :
  attributes flags entry t.text.toList bound = .ok (flags, entry, t.text.toList)
  := by
  cases bound with
  | zero => rfl
  | succ bound =>
    rw [attributes]
    split
    · rfl
    · next head last hsplit =>
      have htext := Text.eq_append_of_splitLast? hsplit
      have hequals : '=' ∉ last := by
        intro hmem
        apply not_mem_typeText (c := '=') (by decide) (by decide) t
        rw [htext]
        simp [hmem]
      have hnone : ∀ lead : List Char, '=' ∈ lead → Text.after? lead last = none := by
        intro lead hlead
        cases hafter : Text.after? lead last with
        | none => rfl
        | some rest =>
          rw [Text.eq_append_of_after? hafter] at hequals
          simp [hlead] at hequals
      rw [hnone "flags=".toList (by decide), hnone "entry=".toList (by decide)]
      rfl

theorem attributes_entry
    {b : BlockId} (flags : Flags) (entry : BlockId) (text : List Char) (bound : Nat)
    (h : Fits32 b) :
  attributes flags entry (text ++ ' ' :: ("entry=".toList ++ (blockText b).toList)) (bound + 1)
    = attributes flags b text bound
  := by
  have hspace : ' ' ∉ "entry=".toList ++ (blockText b).toList := by
    rw [List.mem_append, not_or]
    exact ⟨by decide, not_mem_blockText (by decide) (by decide)⟩
  have hsplit : Text.splitLast? [' '] (text ++ ' ' :: ("entry=".toList ++ (blockText b).toList))
      = some (text, "entry=".toList ++ (blockText b).toList) :=
    Text.splitLast?_append [] hspace text
  have hflags : Text.after? "flags=".toList ("entry=".toList ++ (blockText b).toList) = none := by
    simp [Text.after?]
  simp only [attributes, hsplit, hflags, Text.after?_append, block_blockText h]
  rfl

/-- The flags are read from their names. -/
theorem foldlM_flag (flags : Flags) :
  (flags.names.map String.toList).foldlM flag .none = .ok flags
  := by
  obtain ⟨tailRecursive, genericInstance, topLevel⟩ := flags
  cases tailRecursive <;> cases genericInstance <;> cases topLevel <;> rfl

theorem flagNames_spec (flags : Flags) :
  ∀ name ∈ flags.names.map String.toList, ',' ∉ name ∧ ' ' ∉ name ∧ '\n' ∉ name
  := by
  obtain ⟨tailRecursive, genericInstance, topLevel⟩ := flags
  cases tailRecursive <;> cases genericInstance <;> cases topLevel <;> decide

theorem attributes_flags
    {flags : Flags} (entry : BlockId) (text : List Char) (bound : Nat) (h : flags.names ≠ []) :
  attributes .none entry
      (text ++ ' ' :: ("flags=".toList ++ (",".intercalate flags.names).toList)) (bound + 1)
    = attributes flags entry text bound
  := by
  have hnames : (",".intercalate flags.names).toList
      = [','].intercalate (flags.names.map String.toList) := by
    rw [String.toList_intercalate]
    rfl
  have hspace : ' ' ∉ "flags=".toList ++ (",".intercalate flags.names).toList := by
    rw [hnames, List.mem_append, not_or]
    refine ⟨by decide, Text.not_mem_intercalate (by decide) ?_⟩
    exact fun name hname => (flagNames_spec flags name hname).2.1
  have hsplit : Text.splitLast? [' ']
      (text ++ ' ' :: ("flags=".toList ++ (",".intercalate flags.names).toList))
      = some (text, "flags=".toList ++ (",".intercalate flags.names).toList) :=
    Text.splitLast?_append [] hspace text
  have hparts : Text.splitOn ',' ([','].intercalate (flags.names.map String.toList))
      = flags.names.map String.toList :=
    Text.splitOn_intercalate (by simpa using h) fun name hname => (flagNames_spec flags name hname).1
  simp only [attributes, hsplit, Text.after?_append]
  rw [hnames, hparts, foldlM_flag]
  rfl

/-- The words after the result type of a function. -/
def attributeText (f : Function) : List Char :=
  (if f.entry = 0 then [] else ' ' :: ("entry=".toList ++ (blockText f.entry).toList)) ++
    (if f.flags.names.isEmpty then []
      else ' ' :: ("flags=".toList ++ (",".intercalate f.flags.names).toList))

/-- The attributes are read from the last one on, and then the type is left. -/
theorem attributes_attributeText {f : Function} (hentry : Fits32 f.entry) :
  attributes .none 0 (f.result.text.toList ++ attributeText f)
      (f.result.text.toList ++ attributeText f).length
    = .ok (f.flags, f.entry, f.result.text.toList)
  := by
  have hflags : f.flags.names = [] → f.flags = .none := by
    obtain ⟨tailRecursive, genericInstance, topLevel⟩ := f.flags
    cases tailRecursive <;> cases genericInstance <;> cases topLevel <;> decide
  unfold attributeText
  by_cases hzero : f.entry = 0
  · by_cases hnames : f.flags.names = []
    · rw [if_pos hzero, if_pos (by simpa using hnames), List.append_nil, List.append_nil,
        attributes_type, hzero, hflags hnames]
    · rw [if_pos hzero, if_neg (by simpa using hnames), List.nil_append]
      generalize hbound : (f.result.text.toList ++ _).length = bound
      simp only [List.length_append, List.length_cons] at hbound
      obtain ⟨bound, rfl⟩ := Nat.exists_eq_succ_of_ne_zero (n := bound) (by omega)
      rw [attributes_flags 0 _ _ hnames, attributes_type, hzero]
  · by_cases hnames : f.flags.names = []
    · rw [if_neg hzero, if_pos (by simpa using hnames), List.append_nil]
      generalize hbound : (f.result.text.toList ++ _).length = bound
      simp only [List.length_append, List.length_cons] at hbound
      obtain ⟨bound, rfl⟩ := Nat.exists_eq_succ_of_ne_zero (n := bound) (by omega)
      rw [attributes_entry _ _ _ _ hentry, attributes_type, hflags hnames]
    · rw [if_neg hzero, if_neg (by simpa using hnames), ← List.append_assoc]
      generalize hbound : ((f.result.text.toList ++ _) ++ _).length = bound
      simp only [List.length_append, List.length_cons] at hbound
      obtain ⟨bound, rfl⟩ := Nat.exists_eq_succ_of_ne_zero (n := bound) (by omega)
      obtain ⟨bound, rfl⟩ := Nat.exists_eq_succ_of_ne_zero (n := bound) (by omega)
      rw [attributes_flags 0 _ _ hnames, attributes_entry _ _ _ _ hentry, attributes_type]

theorem newline_not_mem_attributeText (f : Function) :
  '\n' ∉ attributeText f
  := by
  have hblock : '\n' ∉ (blockText f.entry).toList := not_mem_blockText (by decide) (by decide)
  have hnames : '\n' ∉ [','].intercalate (f.flags.names.map String.toList) := by
    apply Text.not_mem_intercalate (by decide)
    exact fun name hname => (flagNames_spec f.flags name hname).2.2
  unfold attributeText
  rw [List.mem_append, not_or]
  constructor
  · split <;> simp [hblock]
  · split <;> simp [hnames]

theorem toList_header (f : Function) :
  f.header.toList = "func @".toList ++
    ((f.name.toList ++ " -> ".toList ++ (f.result.text.toList ++ attributeText f)) ++ " \x7b".toList)
  := by
  unfold Function.header attributeText
  generalize f.result.text = result
  generalize blockText f.entry = entry
  generalize ",".intercalate f.flags.names = names
  split <;> split <;> simp

/-- The header of a function is read. -/
theorem header_text
    {f : Function} (hname : IsPlainName f.name) (hresult : f.result.Fits) (hentry : Fits32 f.entry) :
  header f.header.toList = .ok ⟨f.name, [], f.result, [], f.entry, [], [], [], f.flags⟩
  := by
  have hspace : ' ' ∉ f.name.toList := by
    intro hmem
    have hblank := (hname.2 _ hmem).1
    contradiction
  have hsplit : splitAt? " -> "
      (f.name.toList ++ " -> ".toList ++ (f.result.text.toList ++ attributeText f))
      = some (f.name.toList, f.result.text.toList ++ attributeText f) := by
    rw [List.append_assoc]
    exact Text.splitFirst?_append hspace _
  rw [header, toList_header, Text.between?_append]
  simp only [required, bind, Except.bind, hsplit, attributes_attributeText hentry,
    type_typeText hresult, String.ofList_toList]
  rfl

/-! ## Slots -/

theorem toList_slotLine (id : SlotId) (s : Slot) :
  (s.text id).toList = "  slot $".toList ++
    ((Nat.toDigits 10 id ++ s.name.elim [] fun name => ' ' :: name.toList) ++
      ':' :: ' ' :: s.type.text.toList)
  := by
  have hslot := toList_slotText id
  unfold Slot.text
  generalize slotText id = slot at hslot ⊢
  generalize s.type.text = type
  cases s.name with
  | none => simp [hslot]
  | some name => simp [hslot]

end Read

end FormCompiler.Flow
