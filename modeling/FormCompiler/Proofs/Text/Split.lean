import FormCompiler.Text.Split

/-!
# Cutting texts back into their parts

A text that was put together from parts is cut into the same parts again, provided that the
separator cannot occur too early: `splitFirst?_append` asks that the first character of the separator
is not in the part before it, `splitLast?_append` asks the same of the last character and the part
after it. Lines and blanks around them are taken off again by `lines_join` and `trim_indent`.
-/

namespace FormCompiler.Text

variable {text rest sep part : List Char} {c : Char} {parts : List (List Char)}

/-! ## Leads and tails -/

@[simp]
theorem after?_append (lead text : List Char) :
  after? lead (lead ++ text) = some text
  := by
  induction lead with
  | nil => rfl
  | cons c lead ih => simpa [after?] using ih

/-- What comes before the text after a lead is the lead. -/
theorem eq_append_of_after? {lead : List Char} (h : after? lead text = some rest) :
  text = lead ++ rest
  := by
  fun_induction after? lead text with
  | case1 text => simpa using h
  | case2 => simp at h
  | case3 c lead text ih => rw [List.cons_append, ← ih h]
  | case4 => simp at h

@[simp]
theorem before?_append (text tail : List Char) :
  before? tail (text ++ tail) = some text
  := by
  simp [before?]

@[simp]
theorem between?_append (lead text tail : List Char) :
  between? lead tail (lead ++ (text ++ tail)) = some text
  := by
  simp [between?]

/-! ## Separators -/

/-- A text without the first character of a separator is not cut. -/
theorem splitFirst?_eq_none (h : c ∉ text) :
  splitFirst? (c :: sep) text = none
  := by
  induction text with
  | nil => rfl
  | cons d text ih =>
    obtain ⟨hcd, htext⟩ := List.ne_and_not_mem_of_not_mem_cons h
    simp [splitFirst?, after?, hcd, ih htext]

/-- Without the first character of the separator in the part before, this part is found. -/
theorem splitFirst?_append (h : c ∉ part) (rest : List Char) :
  splitFirst? (c :: sep) (part ++ (c :: sep ++ rest)) = some (part, rest)
  := by
  induction part with
  | nil =>
    rw [List.nil_append, List.cons_append, splitFirst?, ← List.cons_append, after?_append]
  | cons d part ih =>
    obtain ⟨hcd, hpart⟩ := List.ne_and_not_mem_of_not_mem_cons h
    rw [List.cons_append, splitFirst?, ih hpart]
    simp [after?, hcd]

/-- As `splitFirst?_append`, for a separator whose second character is not in the part before. -/
theorem splitFirst?_append_second {d : Char} (hcd : c ≠ d) (h : d ∉ part) (rest : List Char) :
  splitFirst? (c :: d :: sep) (part ++ (c :: d :: sep ++ rest)) = some (part, rest)
  := by
  induction part with
  | nil =>
    rw [List.nil_append, List.cons_append, splitFirst?, ← List.cons_append, after?_append]
  | cons e part ih =>
    obtain ⟨-, hpart⟩ := List.ne_and_not_mem_of_not_mem_cons h
    rw [List.cons_append, splitFirst?, ih hpart]
    -- the separator could only start at `e` if its second character came next
    have hnone : after? (c :: d :: sep) (e :: (part ++ (c :: d :: sep ++ rest))) = none := by
      cases part with
      | nil => simp [after?, hcd.symm]
      | cons x part => simp [after?, (List.ne_and_not_mem_of_not_mem_cons hpart).1]
    rw [hnone]
    rfl

/-- The parts and the separator make up the text. -/
theorem eq_append_of_splitFirst? (h : splitFirst? sep text = some (part, rest)) :
  text = part ++ (sep ++ rest)
  := by
  induction text generalizing part with
  | nil => simp [splitFirst?] at h
  | cons c text ih =>
    rw [splitFirst?] at h
    split at h
    · obtain ⟨rfl, rfl⟩ := Prod.mk.inj (Option.some.inj h)
      rw [List.nil_append]
      apply eq_append_of_after? (by assumption)
    · obtain ⟨⟨p, r⟩, hsplit, heq⟩ := Option.map_eq_some_iff.mp h
      obtain ⟨rfl, rfl⟩ := Prod.mk.inj heq
      rw [List.cons_append, ← ih hsplit]

/-- Without the last character of the separator in the part after, this part is found. -/
theorem splitLast?_append (sep : List Char) (h : c ∉ rest) (part : List Char) :
  splitLast? (sep ++ [c]) (part ++ (sep ++ [c] ++ rest)) = some (part, rest)
  := by
  have hrest : c ∉ rest.reverse := by simpa using h
  have hsplit : splitFirst? (c :: sep.reverse) (rest.reverse ++ (c :: sep.reverse ++ part.reverse))
      = some (rest.reverse, part.reverse) := splitFirst?_append hrest part.reverse
  rw [splitLast?, List.reverse_concat]
  have hrev : (part ++ (sep ++ [c] ++ rest)).reverse
      = rest.reverse ++ (c :: sep.reverse ++ part.reverse) := by simp
  rw [hrev, hsplit]
  simp

/-- The parts and the separator make up the text. -/
theorem eq_append_of_splitLast? (h : splitLast? sep text = some (part, rest)) :
  text = part ++ (sep ++ rest)
  := by
  obtain ⟨⟨tail, head⟩, hsplit, heq⟩ := Option.map_eq_some_iff.mp h
  obtain ⟨rfl, rfl⟩ := Prod.mk.inj heq
  have htext := congrArg List.reverse (eq_append_of_splitFirst? hsplit)
  simpa using htext

/-! ## Blanks and lines -/

/-- Whether a text has no blank at its start and none at its end. -/
def IsTight (text : List Char) : Prop :=
  (∀ c ∈ text.head?, isBlank c = false) ∧ (∀ c ∈ text.getLast?, isBlank c = false)

theorem trimStart_eq_self (h : ∀ c ∈ text.head?, isBlank c = false) :
  trimStart text = text
  := by
  cases text with
  | nil => rfl
  | cons c text => simp [trimStart, h c rfl]

theorem trim_eq_self (h : IsTight text) :
  trim text = text
  := by
  rw [trim, trimStart_eq_self h.1, trimEnd, trimStart_eq_self (by simpa using h.2),
    List.reverse_reverse]

/-- The blanks in front of a line are taken off. -/
theorem trim_indent (h : IsTight text) :
  trim (' ' :: ' ' :: text) = text
  := by
  have hstart : trimStart (' ' :: ' ' :: text) = trimStart text := by
    simp [trimStart, List.dropWhile, show isBlank ' ' = true from by decide]
  rw [trim, hstart, ← trim, trim_eq_self h]

theorem splitOn_ne_nil (sep : Char) (text : List Char) :
  splitOn sep text ≠ []
  := by
  cases text with
  | nil => simp [splitOn]
  | cons c text =>
    rw [splitOn]
    split
    · simp
    · split <;> simp

/-- A text without the separator is one part. -/
theorem splitOn_eq_singleton {sep : Char} (h : sep ∉ text) :
  splitOn sep text = [text]
  := by
  induction text with
  | nil => rfl
  | cons c text ih =>
    obtain ⟨hsep, htext⟩ := List.ne_and_not_mem_of_not_mem_cons h
    simp [splitOn, ih htext, Ne.symm hsep]

/-- The part before the first separator is found. -/
theorem splitOn_append {sep : Char} (h : sep ∉ part) (rest : List Char) :
  splitOn sep (part ++ sep :: rest) = part :: splitOn sep rest
  := by
  induction part with
  | nil =>
    obtain ⟨first, others, hrest⟩ := List.exists_cons_of_ne_nil (splitOn_ne_nil sep rest)
    simp [splitOn, hrest]
  | cons c part ih =>
    obtain ⟨hsep, hpart⟩ := List.ne_and_not_mem_of_not_mem_cons h
    rw [List.cons_append, splitOn, ih hpart]
    simp [Ne.symm hsep]

/-- The parts of texts that were joined by a separator are the texts. -/
theorem splitOn_intercalate {sep : Char} (hne : parts ≠ []) (h : ∀ part ∈ parts, sep ∉ part) :
  splitOn sep ([sep].intercalate parts) = parts
  := by
  induction parts with
  | nil => exact absurd rfl hne
  | cons part parts ih =>
    cases parts with
    | nil => simpa using splitOn_eq_singleton (h part (by simp))
    | cons next parts =>
      have hrest := ih (by simp) (fun p hp => h p (by simp [hp]))
      rw [List.intercalate_cons_cons, List.append_assoc, List.singleton_append,
        splitOn_append (h part (by simp)), hrest]

/-- What holds of the characters of parts and of their separator holds of the parts joined. -/
theorem forall_mem_intercalate {P : Char → Prop} (hsep : ∀ c ∈ sep, P c) (h : ∀ part ∈ parts, ∀ c ∈ part, P c) :
  ∀ c ∈ sep.intercalate parts, P c
  := by
  induction parts with
  | nil => simp
  | cons part parts ih =>
    cases parts with
    | nil => simpa using h part (by simp)
    | cons next parts =>
      have hrest := ih fun p hp => h p (by simp [hp])
      intro c hc
      rw [List.intercalate_cons_cons, List.mem_append, List.mem_append] at hc
      rcases hc with (hc | hc) | hc
      · exact h part (by simp) c hc
      · exact hsep c hc
      · exact hrest c hc

theorem not_mem_intercalate (hsep : c ∉ sep) (h : ∀ part ∈ parts, c ∉ part) :
  c ∉ sep.intercalate parts
  := by
  intro hmem
  refine forall_mem_intercalate (P := (· ≠ c)) ?_ ?_ c hmem rfl
  · rintro d hd rfl
    exact hsep hd
  · rintro part hpart d hd rfl
    exact h part hpart hd

/-- The parts of texts that each end in a separator are the texts. -/
theorem splitOn_flatMap {sep : Char} (h : ∀ part ∈ parts, sep ∉ part) :
  splitOn sep (parts.flatMap (· ++ [sep])) = parts ++ [[]]
  := by
  induction parts with
  | nil => rfl
  | cons part parts ih =>
    rw [List.flatMap_cons, List.append_assoc, List.singleton_append,
      splitOn_append (h part (by simp)), ih (fun p hp => h p (by simp [hp]))]
    rfl

theorem intercalate_cons (sep part : List Char) (parts : List (List Char)) :
  sep.intercalate (part :: parts) = part ++ parts.flatMap (sep ++ ·)
  := by
  induction parts generalizing part with
  | nil => simp
  | cons next parts ih =>
    simp only [List.intercalate_cons_cons, ih, List.flatMap_cons, List.append_assoc]

theorem intercalate_append_sep (sep : Char) (part : List Char) (parts : List (List Char)) :
  [sep].intercalate (part :: parts) ++ [sep] = (part :: parts).flatMap (· ++ [sep])
  := by
  induction parts generalizing part with
  | nil => simp
  | cons next parts ih =>
    rw [List.intercalate_cons_cons, List.append_assoc, ih]
    rfl

/-- The parts of texts that each come after a separator are the texts. -/
theorem splitOn_append_flatMap {sep : Char} (hpart : sep ∉ part) (h : ∀ p ∈ parts, sep ∉ p) :
  splitOn sep (part ++ parts.flatMap (sep :: ·)) = part :: parts
  := by
  induction parts generalizing part with
  | nil => simpa using splitOn_eq_singleton hpart
  | cons next parts ih =>
    rw [List.flatMap_cons, List.cons_append, splitOn_append hpart,
      ih (h next (by simp)) fun p hp => h p (by simp [hp])]

/-- The lines of a text that was made from lines are these lines. -/
theorem lines_flatMap {ls : List (List Char)} (h : ∀ l ∈ ls, '\n' ∉ l) :
  lines (ls.flatMap (· ++ ['\n'])) = ls
  := by
  simp [lines, splitOn_flatMap h]

end FormCompiler.Text
