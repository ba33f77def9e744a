import FormCompiler.Source.Span
import Mathlib.Data.List.GetD
import Mathlib.Data.List.Induction
import Mathlib.Tactic.SplitIfs
import Mathlib.Tactic.ByContra

/-!
# Looking positions up

A position counts the line breaks before an offset, and the bytes since the last of them
(`Position.behind`). A `LineTable` has it for every offset of its text: it holds the ends of all line
breaks in ascending order, and the last one that is not behind the offset is found by searching. A scan
of the text before the offset finds the same position, if there is such a text, which is to say that the
offset is not inside a character. From there it scans the whole text: the position is still the right one
if no line break follows, and otherwise there is none.
-/

namespace FormCompiler

variable {text scanned : List Char} {before bytes after : List UInt8} {offset : Nat}

/-! ## Bytes -/

theorem byteLength_cons (c : Char) (text : List Char) :
  byteLength (c :: text) = c.utf8Size + byteLength text
  := rfl

theorem byteLength_append (first second : List Char) :
  byteLength (first ++ second) = byteLength first + byteLength second
  := by
  induction first with
  | nil => exact (Nat.zero_add _).symm
  | cons c first ih =>
    change c.utf8Size + byteLength (first ++ second) = c.utf8Size + byteLength first + byteLength second
    rw [ih, Nat.add_assoc]

theorem byteLength_pos (h : text ≠ []) :
  0 < byteLength text
  := by
  obtain ⟨c, rest, rfl⟩ := List.exists_cons_of_ne_nil h
  exact Nat.add_pos_left c.utf8Size_pos _

/-- The bytes of a text in UTF-8. -/
def utf8Bytes (text : List Char) : List UInt8 := text.flatMap String.utf8EncodeChar

theorem utf8Bytes_toList (source : String) :
  utf8Bytes source.toList = source.toUTF8.data.toList
  := by
  rw [String.toUTF8, ← String.utf8Encode_toList, List.utf8Encode, utf8Bytes, List.data_toByteArray]

theorem utf8Bytes_append (first second : List Char) :
  utf8Bytes (first ++ second) = utf8Bytes first ++ utf8Bytes second
  := List.flatMap_append

theorem length_utf8Bytes (text : List Char) :
  (utf8Bytes text).length = byteLength text
  := by
  induction text with
  | nil => rfl
  | cons c text ih =>
    change (String.utf8EncodeChar c ++ utf8Bytes text).length = c.utf8Size + byteLength text
    rw [List.length_append, String.length_utf8EncodeChar, ih]

/-- The byte of a line break. -/
def lineBreak : UInt8 := 10

/-- No other character has the byte of a line break: its bytes are one other value below 128, or all from 128 on. -/
theorem lineBreak_not_mem {c : Char} (h : c ≠ '\n') :
  lineBreak ∉ String.utf8EncodeChar c
  := by
  have hvalue : c.val.toNat ≠ 10 := fun heq => h (Char.ext (UInt32.toNat_inj.mp heq))
  have hbyte : ∀ n, n % 256 ≠ 10 → lineBreak ≠ UInt8.ofNat n := fun n hn heq =>
    hn (by simpa [lineBreak] using (congrArg UInt8.toNat heq).symm)
  unfold String.utf8EncodeChar
  dsimp only
  split_ifs <;> simp only [List.mem_cons, List.not_mem_nil, or_false, not_or]
  · exact hbyte _ (by omega)
  · exact ⟨hbyte _ (by omega), hbyte _ (by omega)⟩
  · exact ⟨hbyte _ (by omega), hbyte _ (by omega), hbyte _ (by omega)⟩
  · exact ⟨hbyte _ (by omega), hbyte _ (by omega), hbyte _ (by omega), hbyte _ (by omega)⟩

theorem count_utf8Bytes (text : List Char) :
  (utf8Bytes text).count lineBreak = text.count '\n'
  := by
  induction text with
  | nil => rfl
  | cons c text ih =>
    change (String.utf8EncodeChar c ++ utf8Bytes text).count lineBreak = (c :: text).count '\n'
    rw [List.count_append, ih, List.count_cons]
    by_cases hc : c = '\n'
    · subst hc
      simp [Nat.add_comm, show (String.utf8EncodeChar '\n').count lineBreak = 1 by decide]
    · rw [List.count_eq_zero_of_not_mem (lineBreak_not_mem hc), if_neg (by simpa using hc), Nat.zero_add, Nat.add_zero]

/-! ## Positions -/

/-- The number of bytes since the last line break. -/
def sinceBreak (bytes : List UInt8) : Nat := (bytes.reverse.takeWhile (· ≠ lineBreak)).length

theorem sinceBreak_append_singleton (bytes : List UInt8) (byte : UInt8) :
  sinceBreak (bytes ++ [byte]) = if byte = lineBreak then 0 else sinceBreak bytes + 1
  := by
  rw [sinceBreak, List.reverse_append, List.reverse_singleton, List.singleton_append, List.takeWhile_cons]
  split <;> simp_all [sinceBreak]

/-- The position behind some bytes: it counts the line breaks, and the bytes since the last of them. -/
def Position.behind (bytes : List UInt8) : Position := ⟨1 + bytes.count lineBreak, 1 + sinceBreak bytes⟩

/-- An offset lies between two characters of a text, or at one of its ends. -/
def IsBetweenChars (text : List Char) (offset : Nat) : Prop :=
  ∃ before after, text = before ++ after ∧ byteLength before = offset

/-- A text can be taken up to an offset if that is not inside a character. -/
theorem takeBytes_eq_some {before : List Char} {n : Nat} :
  takeBytes n text = some before ↔ ∃ after, text = before ++ after ∧ byteLength before = n
  := by
  fun_induction takeBytes n text generalizing before with
  | case1 text =>
    constructor
    · rintro ⟨⟩
      exact ⟨text, rfl, rfl⟩
    · rintro ⟨after, -, hlength⟩
      have hnil : before = [] := Decidable.by_contra fun hne => Nat.ne_of_gt (byteLength_pos hne) hlength
      rw [hnil]
  | case2 n =>
    refine iff_of_false nofun ?_
    rintro ⟨after, hparts, hlength⟩
    obtain ⟨rfl, -⟩ := List.append_eq_nil_iff.mp hparts.symm
    cases hlength
  | case3 n c text hsize ih =>
    rw [Option.map_eq_some_iff]
    constructor
    · rintro ⟨before, hbefore, rfl⟩
      obtain ⟨after, rfl, hlength⟩ := ih.mp hbefore
      exact ⟨after, rfl, (byteLength_cons c before).trans (by omega)⟩
    · rintro ⟨after, hparts, hlength⟩
      obtain _ | ⟨d, before⟩ := before
      · cases hlength
      · obtain ⟨rfl, rfl⟩ := List.cons.inj hparts
        rw [byteLength_cons] at hlength
        exact ⟨before, ih.mpr ⟨after, rfl, by omega⟩, rfl⟩
  | case4 n c text hsize =>
    refine iff_of_false nofun ?_
    rintro ⟨after, hparts, hlength⟩
    obtain _ | ⟨d, before⟩ := before
    · cases hlength
    · obtain ⟨rfl, rfl⟩ := List.cons.inj hparts
      rw [byteLength_cons] at hlength
      omega

/-! ## The ends of line breaks -/

/-- The offsets just after the line breaks among bytes that begin at an offset. -/
def breakEnds (offset : Nat) : List UInt8 → List Nat
  | [] => []
  | byte :: bytes =>
    if byte = lineBreak then (offset + 1) :: breakEnds (offset + 1) bytes else breakEnds (offset + 1) bytes

theorem breakEnds_append (offset : Nat) (first second : List UInt8) :
  breakEnds offset (first ++ second) = breakEnds offset first ++ breakEnds (offset + first.length) second
  := by
  induction first generalizing offset with
  | nil => rfl
  | cons byte first ih =>
    rw [List.cons_append, breakEnds, breakEnds, ih, List.length_cons, Nat.add_comm first.length 1, Nat.add_assoc]
    split <;> rfl

theorem breakEnds_eq_nil (h : lineBreak ∉ bytes) :
  breakEnds offset bytes = []
  := by
  induction bytes generalizing offset with
  | nil => rfl
  | cons byte bytes ih =>
    rw [List.mem_cons, not_or] at h
    rw [breakEnds, if_neg (Ne.symm h.1), ih h.2]

theorem length_breakEnds (offset : Nat) (bytes : List UInt8) :
  (breakEnds offset bytes).length = bytes.count lineBreak
  := by
  induction bytes generalizing offset with
  | nil => rfl
  | cons byte bytes ih =>
    rw [breakEnds, List.count_cons]
    split <;> simp [*]

theorem mem_breakEnds :
  ∀ n ∈ breakEnds offset bytes, offset < n ∧ n ≤ offset + bytes.length
  := by
  induction bytes generalizing offset with
  | nil => exact List.forall_mem_nil _
  | cons byte bytes ih =>
    have hrest : ∀ n ∈ breakEnds (offset + 1) bytes, offset < n ∧ n ≤ offset + (byte :: bytes).length := by
      intro n hn
      have hbounds := ih n hn
      rw [List.length_cons]
      omega
    rw [breakEnds]
    split
    · exact List.forall_mem_cons.mpr ⟨by rw [List.length_cons]; omega, hrest⟩
    · exact hrest

theorem pairwise_breakEnds (offset : Nat) (bytes : List UInt8) :
  (breakEnds offset bytes).Pairwise (· < ·)
  := by
  induction bytes generalizing offset with
  | nil => exact .nil
  | cons byte bytes ih =>
    rw [breakEnds]
    split
    · exact .cons (fun n hn => (mem_breakEnds n hn).1) (ih _)
    · exact ih _

/-- The lines of a text start at the ends of its line breaks. -/
theorem lineStartsFrom_eq (offset : Nat) (text : List Char) :
  lineStartsFrom offset text = breakEnds offset (utf8Bytes text)
  := by
  induction text generalizing offset with
  | nil => rfl
  | cons c text ih =>
    change _ = breakEnds offset (String.utf8EncodeChar c ++ utf8Bytes text)
    rw [lineStartsFrom, breakEnds_append, String.length_utf8EncodeChar, ih]
    by_cases hc : c = '\n'
    · subst hc
      rfl
    · rw [if_neg hc, breakEnds_eq_nil (lineBreak_not_mem hc), List.nil_append]

/-- The last line starts as many bytes before the end as there are since the last line break. -/
theorem getLastD_breakEnds (offset : Nat) (bytes : List UInt8) :
  (breakEnds offset bytes).getLastD offset + sinceBreak bytes = offset + bytes.length
  := by
  induction bytes using List.reverseRecOn with
  | nil => rfl
  | append_singleton bytes byte ih =>
    rw [breakEnds_append, sinceBreak_append_singleton, List.length_append, List.length_singleton, breakEnds, breakEnds]
    split
    · rw [List.getLastD_concat]
      omega
    · rw [List.append_nil]
      omega

/-! ## Searching -/

/-- In an ascending list, a search finds the last number that is not behind the one that it looks for. -/
theorem searchAscending_append
    {first second : List Nat} {value : Nat} (hascending : first.Pairwise (· < ·)) (hfirst : ∀ n ∈ first, n ≤ value)
    (hsecond : ∀ n ∈ second, value < n) :
  searchAscending (first ++ second) value = if value ∈ first then .ok (first.length - 1) else .error first.length
  := by
  have hnot : value ∉ second := fun hmem => Nat.lt_irrefl _ (hsecond value hmem)
  unfold searchAscending
  split_ifs with hmem
  · -- the value is the last number of the first part
    obtain ⟨init, rest, rfl⟩ := List.append_of_mem hmem
    rw [List.pairwise_append, List.pairwise_cons] at hascending
    have hrest : rest = [] := List.eq_nil_iff_forall_not_mem.mpr fun n hn =>
      Nat.not_lt_of_le (hfirst n (by simp [hn])) (hascending.2.1.1 n hn)
    have hinit : value ∉ init := fun hn => Nat.lt_irrefl _ (hascending.2.2 value hn value (by simp))
    have hfound : ((init ++ value :: rest) ++ second).idxOf? value = some init.length := by
      rw [hrest, List.append_assoc, List.idxOf?, List.findIdx?_append, ← List.idxOf?, List.idxOf?_eq_none_iff.mpr hinit]
      simp [List.idxOf?, List.findIdx?_cons]
    rw [hfound, hrest]
    simp
  · have hnone : (first ++ second).idxOf? value = none := by
      rw [List.idxOf?_eq_none_iff, List.mem_append]
      exact fun h => h.elim hmem hnot
    have hbefore : first.countP (· < value) = first.length := by
      rw [List.countP_eq_length]
      intro n hn
      exact decide_eq_true (Nat.lt_of_le_of_ne (hfirst n hn) fun heq => hmem (heq ▸ hn))
    have hbehind : second.countP (· < value) = 0 := by
      rw [List.countP_eq_zero]
      intro n hn
      simpa using Nat.le_of_lt (hsecond n hn)
    rw [hnone, List.countP_append, hbefore, hbehind]
    rfl

/-! ## Looking up -/

theorem getD_length_cons (n : Nat) (rest : List Nat) (default : Nat) :
  (n :: rest).getD rest.length default = rest.getLastD n
  := by
  induction rest generalizing n with
  | nil => rfl
  | cons next rest ih => exact (ih next).trans List.getLastD_cons.symm

/-- A table finds the position behind some bytes among those of a text. -/
theorem LineTable.position_breakEnds (before after : List UInt8) :
  (LineTable.mk (0 :: breakEnds 0 (before ++ after))).position before.length = .behind before
  := by
  have hstarts : 0 :: breakEnds 0 (before ++ after) = (0 :: breakEnds 0 before) ++ breakEnds before.length after := by
    rw [breakEnds_append, Nat.zero_add, List.cons_append]
  have hlength : (0 :: breakEnds 0 before).length = 1 + before.count lineBreak := by
    rw [List.length_cons, length_breakEnds, Nat.add_comm]
  have hfirst : ∀ n ∈ 0 :: breakEnds 0 before, n ≤ before.length :=
    List.forall_mem_cons.mpr ⟨Nat.zero_le _, fun n hn => by simpa using (mem_breakEnds n hn).2⟩
  have hsecond : ∀ n ∈ breakEnds before.length after, before.length < n := fun n hn => (mem_breakEnds n hn).1
  have hascending : (0 :: breakEnds 0 before).Pairwise (· < ·) :=
    .cons (fun n hn => (mem_breakEnds n hn).1) (pairwise_breakEnds 0 before)
  have hsearch := searchAscending_append hascending hfirst hsecond
  have hline : (LineTable.mk (0 :: breakEnds 0 (before ++ after))).lineAt before.length = 1 + before.count lineBreak := by
    rw [lineAt, hstarts, hsearch, hlength]
    split_ifs
    · exact Nat.sub_add_cancel (Nat.le_add_right ..)
    · exact Nat.sub_add_cancel (Nat.le_add_right ..)
  have hstart : (0 :: breakEnds 0 (before ++ after)).getD (before.count lineBreak) 0 = (breakEnds 0 before).getLastD 0 := by
    rw [hstarts, List.getD_append _ _ _ _ (by omega), ← length_breakEnds 0 before, getD_length_cons]
  have hlast := getLastD_breakEnds 0 before
  rw [position, hline, Position.behind, Nat.add_sub_cancel_left, hstart]
  congr 1
  omega

/-- A table finds the position behind the bytes before an offset. -/
theorem position_ofSource (source : String) (h : offset ≤ byteLength source.toList) :
  (LineTable.ofSource source).position offset = .behind (source.toUTF8.data.toList.take offset)
  := by
  have hposition := LineTable.position_breakEnds (source.toUTF8.data.toList.take offset)
    (source.toUTF8.data.toList.drop offset)
  rw [List.take_append_drop, ← utf8Bytes_toList, ← lineStartsFrom_eq, List.length_take_of_le] at hposition
  · rwa [utf8Bytes_toList] at hposition
  · rwa [length_utf8Bytes]

/-- Characters may be scanned that end behind an offset, if they have no line break there. -/
theorem behind_of_scanned (h : utf8Bytes scanned = before ++ after) (hafter : lineBreak ∉ after) :
  lastLineStart scanned ≤ before.length
  ∧ Position.mk (scanned.count '\n' + 1) (before.length - lastLineStart scanned + 1) = .behind before
  := by
  have hstart : lastLineStart scanned = (breakEnds 0 before).getLastD 0 := by
    rw [lastLineStart, lineStartsFrom_eq, h, breakEnds_append, breakEnds_eq_nil hafter, List.append_nil]
  have hcount : scanned.count '\n' = before.count lineBreak := by
    rw [← count_utf8Bytes, h, List.count_append, List.count_eq_zero_of_not_mem hafter, Nat.add_zero]
  have hlast := getLastD_breakEnds 0 before
  rw [hstart, hcount, Position.behind]
  refine ⟨by omega, ?_⟩
  congr 1 <;> omega

/-- The last line of a text starts behind the bytes before one of its line breaks. -/
theorem lt_lastLineStart (h : utf8Bytes scanned = before ++ after) (hafter : lineBreak ∈ after) :
  before.length < lastLineStart scanned
  := by
  rw [lastLineStart, lineStartsFrom_eq, h, breakEnds_append, Nat.zero_add]
  rcases List.eq_nil_or_concat (breakEnds before.length after) with hnil | ⟨init, last, hlast⟩
  · have hcount := length_breakEnds before.length after
    rw [hnil] at hcount
    exact absurd hafter (List.count_eq_zero.mp hcount.symm)
  · have hbehind := (mem_breakEnds last (by rw [hlast]; simp)).1
    rwa [hlast, List.concat_eq_append, ← List.append_assoc, List.getLastD_concat]

/-- A scan finds the same position between two characters, and where no line break follows. Elsewhere it finds none. -/
theorem lineColumn?_eq (source : String) (h : offset ≤ byteLength source.toList) :
  (IsBetweenChars source.toList offset ∨ lineBreak ∉ source.toUTF8.data.toList.drop offset →
      lineColumn? source offset = some (.behind (source.toUTF8.data.toList.take offset)))
  ∧ (¬ IsBetweenChars source.toList offset ∧ lineBreak ∈ source.toUTF8.data.toList.drop offset →
      lineColumn? source offset = none)
  := by
  rw [← utf8Bytes_toList, lineColumn?, Nat.min_eq_left h]
  generalize source.toList = text at h ⊢
  rw [← length_utf8Bytes] at h
  have hoffset : ((utf8Bytes text).take offset).length = offset := List.length_take_of_le h
  have hparts := (List.take_append_drop offset (utf8Bytes text)).symm
  cases hbefore : takeBytes offset text with
  | some before =>
    obtain ⟨after, rfl, hlength⟩ := takeBytes_eq_some.mp hbefore
    have hscanned : utf8Bytes before = (utf8Bytes (before ++ after)).take offset ++ [] := by
      rw [utf8Bytes_append, List.take_left' ((length_utf8Bytes before).trans hlength), List.append_nil]
    obtain ⟨hle, hbehind⟩ := behind_of_scanned hscanned List.not_mem_nil
    rw [hoffset] at hle hbehind
    refine ⟨fun _ => ?_, fun hnot => absurd ⟨before, after, rfl, hlength⟩ hnot.1⟩
    rw [Option.getD_some, if_pos hle, hbehind]
  | none =>
    rw [Option.getD_none]
    constructor
    · rintro (⟨before, after, htext, hlength⟩ | hafter)
      · rw [takeBytes_eq_some.mpr ⟨after, htext, hlength⟩] at hbefore
        cases hbefore
      · obtain ⟨hle, hbehind⟩ := behind_of_scanned hparts hafter
        rw [hoffset] at hle hbehind
        rw [if_pos hle, hbehind]
    · rintro ⟨-, hafter⟩
      have hbehind := lt_lastLineStart hparts hafter
      rw [hoffset] at hbehind
      rw [if_neg (Nat.not_le_of_lt hbehind)]

/--
A line table has the position of every offset of its text: one more than the number of line breaks before it, and one
more than the number of bytes since the last of them. A scan of the text finds the same position between two
characters, and inside a character if no line break follows. Otherwise it finds no position.
-/
theorem lineColumn?_eq_position (source : String) (offset : Nat) (h : offset ≤ byteLength source.toList) :
  (LineTable.ofSource source).position offset = .behind (source.toUTF8.data.toList.take offset)
  ∧ (IsBetweenChars source.toList offset ∨ lineBreak ∉ source.toUTF8.data.toList.drop offset →
      lineColumn? source offset = some ((LineTable.ofSource source).position offset))
  ∧ (¬ IsBetweenChars source.toList offset ∧ lineBreak ∈ source.toUTF8.data.toList.drop offset →
      lineColumn? source offset = none)
  := by
  have hposition := position_ofSource source h
  obtain ⟨hsame, hnone⟩ := lineColumn?_eq source h
  exact ⟨hposition, hposition ▸ hsame, hnone⟩

/-- At the end of a text that ends in a line break behind a character of two bytes. -/
theorem lineColumn?_eq_position_atEnd :
  3 ≤ byteLength "é\n".toList ∧ (IsBetweenChars "é\n".toList 3 ∨ lineBreak ∉ "é\n".toUTF8.data.toList.drop 3)
  ∧ lineColumn? "é\n" 3 = some ((LineTable.ofSource "é\n").position 3)
  := by
  have hlength : 3 ≤ byteLength "é\n".toList := by decide
  have hbetween : IsBetweenChars "é\n".toList 3 := ⟨"é\n".toList, [], by simp, by decide⟩
  exact ⟨hlength, .inl hbetween, (lineColumn?_eq_position _ 3 hlength).2.1 (.inl hbetween)⟩

/-- Inside of a character before a line break a line table has a position, and a scan finds none. -/
theorem lineColumn?_insideChar :
  1 ≤ byteLength "é\n".toList ∧ (LineTable.ofSource "é\n").position 1 = ⟨1, 2⟩ ∧ lineColumn? "é\n" 1 = none
  := by decide

end FormCompiler
