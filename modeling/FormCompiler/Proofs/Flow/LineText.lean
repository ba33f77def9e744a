import FormCompiler.Proofs.Flow.InstrText

/-!
# Lines of instructions

A line is an instruction, perhaps with the span of the text it was made from. A span at the end of a
line is found again (`splitSpan_append`), and nothing else is taken for one: the line of an
instruction without a span has no `@` at all, or no dot, or it ends with a quote
(`isLineText_operationText`).
-/

namespace FormCompiler.Flow

namespace Read

/-! ## Spans -/

theorem toList_spanText (span : Span) :
  span.text.toList = Nat.toDigits 10 span.start ++ '.' :: '.' :: Nat.toDigits 10 span.stop
  := by
  simp [Span.text]
  rfl

/-- A span at the end of a line is found. -/
theorem splitSpan_append {span : Span} (hstart : Fits32 span.start) (hstop : Fits32 span.stop)
    (text : List Char) :
  splitSpan (text ++ ' ' :: '@' :: span.text.toList) = (text, some span)
  := by
  have hat : '@' ∉ span.text.toList := by
    simp [toList_spanText, Text.not_mem_toDigits (c := '@') (by decide)]
  have hlast : Text.splitLast? " @".toList (text ++ ' ' :: '@' :: span.text.toList)
      = some (text, span.text.toList) := Text.splitLast?_append [' '] hat text
  have hdot : '.' ∉ Nat.toDigits 10 span.start := Text.not_mem_toDigits (by decide)
  have hsplit : splitAt? ".." span.text.toList
      = some (Nat.toDigits 10 span.start, Nat.toDigits 10 span.stop) := by
    rw [toList_spanText]
    exact Text.splitFirst?_append hdot _
  simp only [splitSpan, hlast, hsplit, Option.bind_eq_bind, Option.bind_some,
    Text.nat32?_toDigits hstart, Text.nat32?_toDigits hstop]
  rfl

/-- Nothing is taken for a span in a line without one. -/
theorem splitSpan_eq_self
    {text : List Char} (h : '@' ∉ text ∨ '.' ∉ text ∨ text.getLast? = some '"') :
  splitSpan text = (text, none)
  := by
  cases hlast : Text.splitLast? " @".toList text with
  | none =>
    simp only [splitSpan, hlast]
    rfl
  | some parts =>
    obtain ⟨head, tail⟩ := parts
    have htext : text = head ++ (" @".toList ++ tail) := Text.eq_append_of_splitLast? hlast
    have hat : '@' ∈ text := by simp [htext]
    cases hsplit : splitAt? ".." tail with
    | none =>
      simp only [splitSpan, hlast, hsplit, Option.bind_eq_bind, Option.bind_some, Option.bind_none]
      rfl
    | some ends =>
      obtain ⟨start, stop⟩ := ends
      have htail : tail = start ++ ("..".toList ++ stop) := Text.eq_append_of_splitFirst? hsplit
      have hdot : '.' ∈ text := by simp [htext, htail]
      -- only a line that ends with a quote is left, and a quote is no digit
      have hquote : text.getLast? = some '"' := by tauto
      have hstop : Text.nat32? stop = none := by
        apply Text.nat32?_eq_none (c := '"') (by decide) (by decide)
        apply List.mem_of_getLast?
        cases stop with
        | nil => simp [htext, htail, List.getLast?_cons] at hquote
        | cons c stop => simpa [htext, htail, List.getLast?_cons] using hquote
      simp only [splitSpan, hlast, hsplit, hstop, Option.bind_eq_bind, Option.bind_some]
      cases Text.nat32? start <;> rfl

end Read

/-! ## Characters of instructions -/

/-- Whether a text ends with a character that is no blank. -/
def EndsTight (text : List Char) : Prop := ∃ c, text.getLast? = some c ∧ Text.isBlank c = false

theorem EndsTight.append {t : List Char} (h : EndsTight t) (s : List Char) :
  EndsTight (s ++ t)
  := by
  obtain ⟨c, hlast, hc⟩ := h
  exact ⟨c, by simp [List.getLast?_append, hlast], hc⟩

theorem EndsTight.concat {c : Char} (h : Text.isBlank c = false) (s : List Char) :
  EndsTight (s ++ [c])
  := by
  exact ⟨c, by simp, h⟩

theorem endsTight_of_forall
    {text : List Char} (hne : text ≠ []) (h : ∀ c ∈ text, Text.isBlank c = false) :
  EndsTight text
  := ⟨text.getLast hne, List.getLast?_eq_some_getLast hne, h _ (List.getLast_mem hne)⟩

theorem endsTight_intercalate
    {sep : List Char} {parts : List (List Char)} (hne : parts ≠ [])
    (h : ∀ part ∈ parts, EndsTight part) :
  EndsTight (sep.intercalate parts)
  := by
  induction parts with
  | nil => contradiction
  | cons part parts ih =>
    cases parts with
    | nil => simpa using h part (by simp)
    | cons next parts =>
      rw [List.intercalate_cons_cons]
      exact (ih (by simp) fun p hp => h p (by simp [hp])).append _

theorem endsTight_toDigits (n : Nat) :
  EndsTight (Nat.toDigits 10 n)
  := by
  apply endsTight_of_forall Nat.toDigits_ne_nil
  intro c hc
  apply Read.isBlank_of_isDigit
  apply Nat.isDigit_of_mem_toDigits (by decide) (by decide) hc

theorem endsTight_typeText (t : ValueType) :
  EndsTight t.text.toList
  := by
  obtain ⟨c, hlast, hc⟩ := getLast?_typeText t
  simp only [isTypeEnd, Bool.and_eq_true, Bool.not_eq_true'] at hc
  exact ⟨c, hlast, hc.1⟩

theorem endsTight_write (s : String) :
  EndsTight (Text.Quoted.write s).toList
  := ⟨'"', Text.Quoted.getLast?_write s, by decide⟩

theorem endsTight_render {bits : UInt64} (h : Double.view bits ≠ .notANumber) :
  EndsTight (Double.render bits).toList
  := by
  have hread := Double.parse?_render h
  apply endsTight_of_forall
  · intro hnil
    have hnone : Double.parse? [] = none := by decide
    rw [hnil, hnone] at hread
    contradiction
  · intro c hc
    by_contra hblank
    have hother : (['.', 'e', '-', 'i', 'n', 'f', 'N', 'a'].all fun c => !Text.isBlank c) = true := by
      decide
    refine Double.not_mem_render ?_ ?_ hc
    · by_contra hdigit
      exact hblank (Read.isBlank_of_isDigit (by simpa using hdigit))
    · intro hmem
      have hplain := List.all_eq_true.mp hother c hmem
      simp_all

/-- What the line of an instruction needs to be one line, and not to be taken for one with a span. -/
structure IsLineText (text : List Char) : Prop where
  newline : '\n' ∉ text
  ends : EndsTight text
  span : '@' ∉ text ∨ '.' ∉ text ∨ text.getLast? = some '"'

theorem IsLineText.append
    {text : List Char} (h : IsLineText text) (lead : List Char)
    (hlead : '\n' ∉ lead ∧ '@' ∉ lead ∧ '.' ∉ lead) :
  IsLineText (lead ++ text)
  := by
  refine ⟨by simp [hlead, h.newline], h.ends.append lead, ?_⟩
  rcases h.span with hat | hdot | hquote
  · exact .inl (by simp [hlead, hat])
  · exact .inr (.inl (by simp [hlead, hdot]))
  · exact .inr (.inr (by simp [List.getLast?_append, hquote]))

theorem isLineText_toDigits (n : Nat) :
  IsLineText (Nat.toDigits 10 n)
  := ⟨Text.not_mem_toDigits (by decide), endsTight_toDigits n,
    .inl (Text.not_mem_toDigits (by decide))⟩

theorem isLineText_varText (v : VarId) :
  IsLineText (varText v).toList
  := by
  rw [toList_varText]
  apply (isLineText_toDigits v).append ['%']
  decide

theorem isLineText_slotText (s : SlotId) :
  IsLineText (slotText s).toList
  := by
  rw [toList_slotText]
  apply (isLineText_toDigits s).append ['$']
  decide

theorem isLineText_write (s : String) :
  IsLineText (Text.Quoted.write s).toList
  := ⟨Text.Quoted.newline_not_mem_write s, endsTight_write s, .inr (.inr (Text.Quoted.getLast?_write s))⟩

theorem IsLineText.concat
    {c : Char} (hc : c ≠ '\n' ∧ c ≠ '@' ∧ Text.isBlank c = false) (text : List Char)
    (h : '\n' ∉ text ∧ '@' ∉ text) :
  IsLineText (text ++ [c])
  := by
  refine ⟨?_, EndsTight.concat hc.2.2 text, .inl ?_⟩
  · simp [h, hc.1.symm]
  · simp [h, hc.2.1.symm]

theorem isLineText_const
    {c : Const} (h : ∀ bits, c = .float bits → Double.view bits ≠ .notANumber) :
  IsLineText c.text.toList
  := by
  cases c with
  | int n =>
    rw [Const.text, Text.toList_toString_int]
    split
    · apply (isLineText_toDigits n.natAbs).append ['-']
      decide
    · apply isLineText_toDigits
  | float bits =>
    exact ⟨Double.not_mem_render (by decide) (by decide), endsTight_render (h bits rfl),
      .inl (Double.not_mem_render (by decide) (by decide))⟩
  | bool b =>
    cases b with
    | true | false => exact ⟨by decide, ⟨'e', rfl, by decide⟩, .inl (by decide)⟩
  | str s => apply isLineText_write

theorem isLineText_name {name : String} (h : IsPlainName name) :
  IsLineText ('@' :: name.toList)
  := by
  have hne : name.toList ≠ [] := by simpa using h.1
  refine ⟨?_, ?_, .inr (.inl ?_)⟩
  · rw [List.mem_cons, not_or]
    refine ⟨by decide, fun hmem => ?_⟩
    have hblank := (h.2 _ hmem).1
    contradiction
  · exact (endsTight_of_forall hne fun c hc => (h.2 c hc).1).append ['@']
  · rw [List.mem_cons, not_or]
    exact ⟨by decide, fun hmem => (h.2 _ hmem).2 (by simp)⟩

theorem isLineText_call
    {callee : String} (args : List VarId) (convention : Convention) (h : IsPlainName callee) :
  IsLineText ('@' :: (callee.toList ++ '(' :: ((varsText args).toList ++ ')' :: convention.text.toList)))
  := by
  have hname := isLineText_name h
  have hdot : '.' ∉ callee.toList := fun hmem => (h.2 _ hmem).2 (by simp)
  have hargs : ∀ c : Char, c.isDigit = false → c ≠ '%' → c ≠ ',' → c ≠ ' ' →
      c ∉ (varsText args).toList := fun c => not_mem_varsText
  cases convention with
  | native =>
    refine ⟨?_, ?_, .inr (.inl ?_)⟩
    · have hnewline := hname.newline
      simp only [List.mem_cons, not_or] at hnewline
      simp [Convention.text, hnewline.2, hargs]
    · have hends := EndsTight.concat (c := ')') (by decide)
        ('@' :: (callee.toList ++ '(' :: (varsText args).toList))
      simpa [Convention.text] using hends
    · simp [Convention.text, hdot, hargs]
  | foreign library =>
    have hwrite := isLineText_write library
    refine ⟨?_, ?_, .inr (.inr ?_)⟩
    · have hnewline := hname.newline
      simp only [List.mem_cons, not_or] at hnewline
      simp [Convention.text, hnewline.2, hargs, hwrite.newline]
    · have hends := hwrite.ends.append
        ('@' :: (callee.toList ++ '(' :: ((varsText args).toList ++ [')', ' ', 'c', ' '])))
      simpa [Convention.text] using hends
    · simp [Convention.text, List.getLast?_cons, Text.Quoted.getLast?_write]

/-- The operation of an instruction is one line without a span. -/
theorem isLineText_operationText {instr : Instr} (h : instr.IsPlain) :
  IsLineText instr.operationText.toList
  := by
  have hvar : ∀ (c : Char) (v : VarId), c.isDigit = false → c ≠ '%' → c ∉ (varText v).toList :=
    fun _ _ => not_mem_varText
  have hslot : ∀ (c : Char) (s : SlotId), c.isDigit = false → c ≠ '$' → c ∉ (slotText s).toList :=
    fun _ _ => not_mem_slotText
  have hvars : ∀ (c : Char) (vs : List VarId), c.isDigit = false → c ≠ '%' → c ≠ ',' → c ≠ ' ' →
      c ∉ (varsText vs).toList := fun _ _ => not_mem_varsText
  have hdigits : ∀ (c : Char) (n : Nat), c.isDigit = false → c ∉ Nat.toDigits 10 n :=
    fun _ _ => Text.not_mem_toDigits
  cases instr with
  | set dst value =>
    cases value with
    | const c =>
      have hconst := isLineText_const (c := c) fun bits hbits =>
        h.float bits (by simp [Instr.float?, hbits])
      simpa [Instr.operationText, Value.text] using hconst.append "const ".toList (by decide)
    | copy v =>
      simpa [Instr.operationText, Value.text] using
        (isLineText_varText v).append "copy ".toList (by decide)
    | binary op lhs rhs =>
      have hop : '\n' ∉ op.mnemonic.toList ∧ '@' ∉ op.mnemonic.toList ∧ '.' ∉ op.mnemonic.toList := by
        cases op <;> decide
      simpa [Instr.operationText, Value.text] using (isLineText_varText rhs).append
        (op.mnemonic.toList ++ ' ' :: ((varText lhs).toList ++ [',', ' ']))
        (by simp [hop, hvar])
    | unary op v =>
      have hop : '\n' ∉ op.mnemonic.toList ∧ '@' ∉ op.mnemonic.toList ∧ '.' ∉ op.mnemonic.toList := by
        cases op <;> decide
      simpa [Instr.operationText, Value.text] using (isLineText_varText v).append
        (op.mnemonic.toList ++ [' ']) (by simp [hop])
    | cast v =>
      simpa [Instr.operationText, Value.text] using
        (isLineText_varText v).append "cast ".toList (by decide)
  | call dst callee args convention isTail =>
    have hcall := isLineText_call args convention (h.name callee rfl)
    cases isTail with
    | true =>
      simpa [Instr.operationText] using hcall.append "tail call ".toList (by decide)
    | false => simpa [Instr.operationText] using hcall.append "call ".toList (by decide)
  | load dst slot =>
    simpa [Instr.operationText] using
      (isLineText_slotText slot).append "load ".toList (by decide)
  | store slot value =>
    simpa [Instr.operationText] using (isLineText_varText value).append
      ("store ".toList ++ ((slotText slot).toList ++ [',', ' '])) (by simp [hslot])
  | loadGlobal dst name =>
    simpa [Instr.operationText] using
      (isLineText_name (h.name name rfl)).append "global ".toList (by decide)
  | loadElement dst slot index =>
    simpa [Instr.operationText] using IsLineText.concat (c := ']') (by decide)
      ("index ".toList ++ ((slotText slot).toList ++ '[' :: (varText index).toList))
      (by simp [hslot, hvar])
  | storeElement slot index value =>
    simpa [Instr.operationText] using (isLineText_varText value).append
      ("store ".toList ++ ((slotText slot).toList ++ '[' :: ((varText index).toList ++
        [']', ',', ' ']))) (by simp [hslot, hvar])
  | boundsCheck index length =>
    simpa [Instr.operationText] using (isLineText_toDigits length).append
      ("bounds_check ".toList ++ ((varText index).toList ++ [',', ' '])) (by simp [hvar])
  | makeArray dst elements =>
    simpa [Instr.operationText] using IsLineText.concat (c := ']') (by decide)
      ("array [".toList ++ (varsText elements).toList) (by simp [hvars])
  | makeTuple dst elements =>
    simpa [Instr.operationText] using IsLineText.concat (c := ')') (by decide)
      ("tuple (".toList ++ (varsText elements).toList) (by simp [hvars])
  | extract dst tuple index =>
    simpa [Instr.operationText] using (isLineText_toDigits index).append
      ("extract ".toList ++ ((varText tuple).toList ++ [',', ' '])) (by simp [hvar])
  | alloc dst size =>
    simpa [Instr.operationText] using
      (isLineText_varText size).append "alloc ".toList (by decide)
  | free pointer =>
    simpa [Instr.operationText] using
      (isLineText_varText pointer).append "free ".toList (by decide)
  | release pointer =>
    simpa [Instr.operationText] using
      (isLineText_varText pointer).append "release ".toList (by decide)
  | loadLanes dst slot start =>
    simpa [Instr.operationText] using IsLineText.concat (c := ']') (by decide)
      ("vload ".toList ++ ((slotText slot).toList ++ '[' :: Nat.toDigits 10 start))
      (by simp [hslot, hdigits])
  | storeLanes slot start value =>
    simpa [Instr.operationText] using (isLineText_varText value).append
      ("vstore ".toList ++ ((slotText slot).toList ++ '[' :: (Nat.toDigits 10 start ++
        [']', ',', ' ']))) (by simp [hslot, hdigits])
  | binaryLanes dst op lhs rhs =>
    have hop : '\n' ∉ op.mnemonic.toList ∧ '@' ∉ op.mnemonic.toList ∧ '.' ∉ op.mnemonic.toList := by
      cases op <;> decide
    simpa [Instr.operationText] using (isLineText_varText rhs).append
      ('v' :: (op.mnemonic.toList ++ ' ' :: ((varText lhs).toList ++ [',', ' '])))
      (by simp [hop, hvar])

end FormCompiler.Flow
