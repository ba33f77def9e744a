import FormCompiler.Flow.Read
import FormCompiler.Proofs.Text.Split
import Mathlib.Data.List.TakeWhile

/-!
# Lists between commas

A list is cut at the commas that are not inside brackets. A text is *closed* at a depth if all of it
goes to one part of the list: its brackets match, and it has no comma at depth zero. Closed texts
are built up from characters by concatenation (`IsClosed.append`) and by brackets around them
(`IsClosed.bracket`), and closed texts that were joined by commas are found again
(`listItems_intercalate`).
-/

namespace FormCompiler.Flow.Read

variable {depth : Int} {text : List Char} {items : List (List Char)}

/-! ## Closed texts -/

/-- Puts a text in front of the first part. -/
def prepend (text : List Char) : List (List Char) → List (List Char)
  | [] => [text]
  | part :: parts => (text ++ part) :: parts

theorem prepend_prepend (s t : List Char) (parts : List (List Char)) :
  prepend s (prepend t parts) = prepend (s ++ t) parts
  := by
  cases parts with
  | nil => rfl
  | cons part parts => simp [prepend]

/-- The character before what follows a text. -/
def lastOf (previous : Option Char) (text : List Char) : Option Char :=
  text.getLast?.or previous

theorem lastOf_append (previous : Option Char) (s t : List Char) :
  lastOf (lastOf previous s) t = lastOf previous (s ++ t)
  := by
  simp [lastOf, List.getLast?_append, Option.or_assoc]

/-- Whether all of a text goes to one part of a list, at a depth of brackets. -/
def IsClosed (depth : Int) (text : List Char) : Prop :=
  ∀ (previous : Option Char) (rest : List Char),
    listParts depth previous (text ++ rest)
      = prepend text (listParts depth (lastOf previous text) rest)

theorem listParts_ne_nil (depth : Int) (previous : Option Char) (text : List Char) :
  listParts depth previous text ≠ []
  := by
  cases text with
  | nil => simp [listParts]
  | cons c text =>
    rw [listParts]
    split
    · simp
    · split <;> simp

theorem IsClosed.nil (depth : Int) :
  IsClosed depth []
  := by
  intro previous rest
  obtain ⟨part, parts, hparts⟩ := List.exists_cons_of_ne_nil (listParts_ne_nil depth previous rest)
  simp [lastOf, hparts, prepend]

/-- A character that neither separates items nor opens or closes a bracket. -/
theorem listParts_cons {c : Char} (hc : ¬(c = ',' ∧ depth = 0)) (previous : Option Char) (rest : List Char) :
  listParts depth previous (c :: rest)
    = prepend [c] (listParts (depth + nesting previous c) (some c) rest)
  := by
  rw [listParts]
  simp only [if_neg hc]
  cases listParts (depth + nesting previous c) (some c) rest <;> rfl

theorem IsClosed.append {s t : List Char} (hs : IsClosed depth s) (ht : IsClosed depth t) :
  IsClosed depth (s ++ t)
  := by
  intro previous rest
  rw [List.append_assoc, hs, ht, prepend_prepend, lastOf_append]

theorem IsClosed.singleton {c : Char} (hc : ¬(c = ',' ∧ depth = 0)) (hnesting : ∀ p, nesting p c = 0) :
  IsClosed depth [c]
  := by
  intro previous rest
  rw [List.singleton_append, listParts_cons hc, hnesting]
  simp [lastOf]

/-- The characters that mean something inside a list. -/
def isListMark (c : Char) : Bool := ",[](<>)".toList.contains c

theorem nesting_eq_zero {c : Char} (hc : isListMark c = false) (previous : Option Char) :
  nesting previous c = 0
  := by
  simp [isListMark] at hc
  simp [nesting, hc]

/-- A text without brackets and commas is closed. -/
theorem IsClosed.of_plain (h : ∀ c ∈ text, isListMark c = false) :
  IsClosed depth text
  := by
  induction text with
  | nil => apply IsClosed.nil
  | cons c text ih =>
    have hc := h c (by simp)
    have hne : c ≠ ',' := by
      rintro rfl
      contradiction
    rw [← List.singleton_append]
    apply IsClosed.append
    · apply IsClosed.singleton
      · exact fun hcomma => hne hcomma.1
      · exact nesting_eq_zero hc
    · exact ih fun d hd => h d (by simp [hd])

/-- A closed text with brackets around it is closed. -/
theorem IsClosed.bracket (h : IsClosed (depth + 1) text) (opening closing : Char)
    (hopening : opening ≠ ',' ∧ ∀ p, nesting p opening = 1)
    (hclosing : closing ≠ ',' ∧ nesting (lastOf (some opening) text) closing = -1) :
  IsClosed depth (opening :: (text ++ [closing]))
  := by
  intro previous rest
  rw [List.cons_append, listParts_cons (fun hcomma => hopening.1 hcomma.1), hopening.2,
    List.append_assoc, h, List.singleton_append,
    listParts_cons (fun hcomma => hclosing.1 hcomma.1), hclosing.2, prepend_prepend, prepend_prepend]
  have hlast : lastOf previous (opening :: (text ++ [closing])) = some closing := by
    rw [lastOf, ← List.cons_append, List.getLast?_concat]
    rfl
  simp [hlast, show depth + 1 + -1 = depth by omega]

/-! ## Joined texts -/

/-- Whether a text may be an item of a list. -/
structure IsItem (text : List Char) : Prop where
  closed : IsClosed 0 text
  tight : Text.IsTight text
  ne_nil : text ≠ []

theorem IsItem.of_plain (hne : text ≠ []) (h : ∀ c ∈ text, isListMark c = false ∧ Text.isBlank c = false) :
  IsItem text
  := by
  refine ⟨IsClosed.of_plain fun c hc => (h c hc).1, ⟨?_, ?_⟩, hne⟩
  · intro c hc
    exact (h c (List.mem_of_mem_head? hc)).2
  · intro c hc
    exact (h c (List.mem_of_mem_getLast? hc)).2

/-- The first item is found. -/
theorem listParts_item
    {item : List Char} (h : IsClosed 0 item) (previous : Option Char) (rest : List Char) :
  listParts 0 previous (item ++ (',' :: rest)) = item :: listParts 0 (some ',') rest
  := by
  rw [h, listParts]
  simp [nesting, prepend]

theorem trim_space (h : Text.IsTight text) :
  Text.trim (' ' :: text) = text
  := by
  have hstart : Text.trimStart (' ' :: text) = Text.trimStart text := by
    simp [Text.trimStart, show Text.isBlank ' ' = true from by decide]
  rw [Text.trim, hstart, ← Text.trim, Text.trim_eq_self h]

/-- The items are found one after another; from the second one on there is a blank before. -/
private theorem map_trim_listParts (lead item : List Char) (hlead : lead = [] ∨ lead = [' ']) (hitem : IsItem item)
    (hitems : ∀ i ∈ items, IsItem i) (previous : Option Char) :
  (listParts 0 previous (lead ++ [',', ' '].intercalate (item :: items))).map Text.trim
    = item :: items
  := by
  have hclosed : IsClosed 0 (lead ++ item) := by
    apply IsClosed.append _ hitem.closed
    rcases hlead with rfl | rfl
    · apply IsClosed.nil
    · apply IsClosed.of_plain (by simp; decide)
  have htrim : Text.trim (lead ++ item) = item := by
    rcases hlead with rfl | rfl
    · apply Text.trim_eq_self hitem.tight
    · apply trim_space hitem.tight
  induction items generalizing lead item previous with
  | nil =>
    have hparts := hclosed previous []
    rw [List.append_nil] at hparts
    rw [List.intercalate_singleton, hparts]
    simp [listParts, prepend, htrim]
  | cons next items ih =>
    have hnext := hitems next (by simp)
    have hrest := ih [' '] next (.inr rfl) hnext
      (fun i hi => hitems i (by simp [hi])) (some ',')
      (IsClosed.append (IsClosed.of_plain (by simp; decide)) hnext.closed) (trim_space hnext.tight)
    rw [List.intercalate_cons_cons, List.append_assoc, ← List.append_assoc, List.cons_append,
      listParts_item hclosed, List.map_cons, htrim, hrest]

/-- Items that were joined by commas are found again. -/
theorem listItems_intercalate (h : ∀ i ∈ items, IsItem i) :
  listItems ([',', ' '].intercalate items) = items
  := by
  cases items with
  | nil => rfl
  | cons item items =>
    have hitem := h item (by simp)
    have hparts := map_trim_listParts [] item (.inl rfl) hitem
      (fun i hi => h i (List.mem_cons_of_mem _ hi)) none
    rw [List.nil_append] at hparts
    have hne : ¬(Text.trim ([',', ' '].intercalate (item :: items))).isEmpty = true := by
      obtain ⟨c, text, htext⟩ := List.exists_cons_of_ne_nil hitem.ne_nil
      have hblank : Text.isBlank c = false := hitem.tight.1 c (by simp [htext])
      obtain ⟨rest, hrest⟩ : ∃ rest, [',', ' '].intercalate (item :: items) = c :: rest := by
        cases items with
        | nil => exact ⟨text, by simpa using htext⟩
        | cons next items => exact ⟨_, by rw [List.intercalate_cons_cons, htext]; rfl⟩
      rw [hrest, Text.trim, Text.trimStart_eq_self (by simpa using hblank), Text.trimEnd]
      simp only [Text.trimStart, List.isEmpty_iff, List.reverse_eq_nil_iff,
        List.dropWhile_eq_nil_iff]
      intro hall
      rw [hall c (by simp)] at hblank
      contradiction
    rw [listItems, if_neg hne, hparts]

end FormCompiler.Flow.Read
