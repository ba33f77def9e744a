import Mathlib
import FormCompiler.Parsing.TypeText
import FormCompiler.Proofs.Text.Split
import FormCompiler.Proofs.Token.Layout

/-!
# Written types

The types that annotations stand for have written forms that are annotations again: the lexer takes
the form as one token, whose text reads back as the type. What is needed for this is that numbers fit
their words and that names are words of the right kind (`Ty.IsWritten`); reading gives such types, and
resolving keeps them so.
-/

namespace FormCompiler

variable {c : Char} {name text rest inner : List Char}

/-! ## Characters of names -/

theorem not_mem_of_all {p : Char → Bool} {marks : List Char} (hmarks : marks.all (fun d => !p d) = true)
    (h : p c = true) :
  c ∉ marks
  := by
  intro hmem
  have hc := List.all_eq_true.mp hmarks c hmem
  rw [h] at hc
  contradiction

theorem isBlank_of_isTypeChar (h : isTypeChar c = true) :
  isBlank c = false
  := by
  have hmem : c ∉ [' ', '\t', '\r', '\n', '\x0c'] := not_mem_of_all (by decide) h
  simpa [isBlank, and_assoc] using hmem

theorem isSymbolChar_of_isNameStart (h : isNameStart c = true) :
  isSymbolChar c = false
  := by
  have hmem : c ∉ "+-*/%<>=!&|^~?@$".toList := not_mem_of_all (by decide) h
  rwa [isSymbolChar, List.contains_eq_mem, decide_eq_false_iff_not]

theorem isTypeChar_of_isNameStart (h : isNameStart c = true) :
  isTypeChar c = true
  := by
  rw [isNameStart] at h
  rw [isTypeChar, Char.isAlphanum]
  grind

/-- A name does not start with a digit. -/
theorem isDigit_of_isNameStart (h : isNameStart c = true) :
  c.isDigit = false
  := by
  rw [← Bool.not_eq_true]
  intro hdigit
  simp only [isNameStart, Char.isAlpha, Char.isUpper, Char.isLower, Char.isDigit, UInt32.le_iff_toNat_le,
    Bool.or_eq_true, Bool.and_eq_true, decide_eq_true_eq, beq_iff_eq] at h hdigit
  rcases h with h | rfl
  · simp at h hdigit
    omega
  · simp at hdigit

theorem isTypeChar_of_mem_toDigits {n : Nat} (h : c ∈ Nat.toDigits 10 n) :
  isTypeChar c = true
  := by
  simp [isTypeChar, Char.isAlphanum, Nat.isDigit_of_mem_toDigits (by decide) (by decide) h]

/-! ## Types that can be written -/

/-- A word whose first character is of some kind. -/
def IsWord (start : Char → Bool) (name : List Char) : Prop :=
  name.head?.any start = true ∧ name.all isTypeChar = true

instance (start : Char → Bool) (name : List Char) : Decidable (IsWord start name) :=
  inferInstanceAs (Decidable (_ ∧ _))

theorem IsWord.exists_cons {start : Char → Bool} (h : IsWord start name) :
  ∃ c rest, name = c :: rest ∧ start c = true
  := by
  cases name with
  | nil => cases h.1
  | cons c rest => exact ⟨c, rest, rfl, h.1⟩

theorem IsWord.isNameStart (h : IsWord Char.isUpper name) :
  IsWord isNameStart name
  := by
  obtain ⟨c, rest, rfl, hc⟩ := h.exists_cons
  exact ⟨by simp [FormCompiler.isNameStart, Char.isAlpha, hc], h.2⟩

/-- Whether a length is a number of 64 bits, or a name. -/
def ArrayLength.IsWritten : ArrayLength → Prop
  | fixed length => length < twoPow 64
  | var name => IsWord isNameStart name.toList

mutual

/-- Whether there is an annotation for a type. -/
def Ty.IsWritten : Ty → Prop
  | .int | .frac | .bool | .str | .ptr | .none => True
  | .sizedInt bits => bits ∈ [8, 16, 32, 64]
  | .sizedFrac bits => bits ∈ [32, 64]
  | .array element length => element.IsWritten ∧ length.IsWritten
  | .tuple elements => elements ≠ [] ∧ typesWritten elements
  | .function params result => typesWritten params ∧ result.IsWritten
  | .var name => IsWord Char.isUpper name.toList

/-- Whether there are annotations for several types. -/
def typesWritten : List Ty → Prop
  | [] => True
  | type :: types => type.IsWritten ∧ typesWritten types

end

mutual

theorem Ty.IsWritten.resolve : ∀ {t : Ty}, t.IsWritten → t.resolve.IsWritten
  | .sizedInt bits, h | .sizedFrac bits, h => by
    rw [Ty.resolve]
    split
    · trivial
    · exact h
  | .array _ _, ⟨helement, hlength⟩ => ⟨helement.resolve, hlength⟩
  | .tuple elements, ⟨hne, helements⟩ => by
    refine ⟨fun hnil => hne ?_, resolveTypes_written helements⟩
    cases elements with
    | nil => rfl
    | cons => cases hnil
  | .function _ _, ⟨hparams, hresult⟩ => ⟨resolveTypes_written hparams, hresult.resolve⟩
  | .int, h | .frac, h | .bool, h | .str, h | .ptr, h | .none, h | .var _, h => h

theorem resolveTypes_written : ∀ {types : List Ty}, typesWritten types → typesWritten (resolveTypes types)
  | [], h => h
  | _ :: _, ⟨htype, htypes⟩ => ⟨htype.resolve, resolveTypes_written htypes⟩

end

mutual

/-- Resolving twice is resolving once. -/
theorem Ty.resolve_resolve : ∀ t : Ty, t.resolve.resolve = t.resolve
  | .sizedInt bits | .sizedFrac bits => by
    rw [Ty.resolve]
    split
    · rfl
    · next hne => rw [Ty.resolve, if_neg hne]
  | .array element length => by simp only [Ty.resolve, element.resolve_resolve]
  | .tuple elements => by simp only [Ty.resolve, resolveTypes_resolveTypes elements]
  | .function params result => by
    simp only [Ty.resolve, resolveTypes_resolveTypes params, result.resolve_resolve]
  | .int | .frac | .bool | .str | .ptr | .none | .var _ => rfl

theorem resolveTypes_resolveTypes : ∀ types : List Ty,
    resolveTypes (resolveTypes types) = resolveTypes types
  | [] => rfl
  | type :: types => by simp only [resolveTypes, type.resolve_resolve, resolveTypes_resolveTypes types]

end

/-! ## What reading gives -/

namespace TypeReader

variable {α β : Type} {P : α → Prop} {Q : β → Prop}

/-- Whatever a reader gives has a property. -/
def Gives (P : α → Prop) (m : TypeReader α) : Prop := ∀ text a rest, m text = .ok (a, rest) → P a

theorem gives_pure {a : α} (h : P a) :
  Gives P (pure a : TypeReader α)
  := by
  rintro text _ rest ⟨⟩
  exact h

theorem gives_throw (fault : TypeFault) :
  Gives P (throw fault : TypeReader α)
  := by
  rintro text a rest ⟨⟩

theorem gives_true (m : TypeReader α) :
  Gives (fun _ => True) m
  := fun _ _ _ _ => trivial

theorem Gives.bind {m : TypeReader α} {f : α → TypeReader β} (hm : Gives P m)
    (hf : ∀ a, P a → Gives Q (f a)) :
  Gives Q (m >>= f)
  := by
  intro text b rest h
  cases hfirst : m text with
  | error fault =>
    simp [Bind.bind, StateT.bind, hfirst, Except.bind] at h
  | ok result =>
    obtain ⟨a, between⟩ := result
    refine hf a (hm text a between hfirst) between b rest ?_
    simpa [Bind.bind, StateT.bind, hfirst, Except.bind] using h

theorem getD_map_false (p : α → Bool) (x : Option α) :
  (x.map p).getD false = x.any p
  := by
  cases x <;> rfl

theorem word_eq (text : List Char) :
  word text = .ok (String.ofList (text.takeWhile isTypeChar), text.dropWhile isTypeChar)
  := rfl

theorem gives_word :
  Gives (fun name => name.toList.all isTypeChar = true) word
  := by
  rintro text _ rest ⟨⟩
  rw [String.toList_ofList]
  exact List.all_takeWhile

theorem gives_number :
  Gives (· < twoPow 64) number
  := by
  refine (gives_true word).bind fun found _ => ?_
  dsimp only
  split
  next h => exact gives_pure (by simpa using (Bool.and_eq_true_iff.mp h).2)
  next => exact gives_throw _

/-- A name starts with the character that the length starts with. -/
theorem gives_length :
  Gives ArrayLength.IsWritten length
  := by
  intro text a rest h
  cases text with
  | nil => cases h
  | cons c text =>
    change (if c.isDigit then _ else _ : TypeReader ArrayLength) (c :: text) = _ at h
    split at h
    next =>
      exact (gives_number.bind fun n hn => gives_pure hn) _ _ _ h
    next =>
      split at h
      next hc =>
        obtain ⟨⟩ := h
        refine ⟨?_, gives_word _ _ _ (word_eq (c :: text))⟩
        change (String.ofList ((c :: text).takeWhile isTypeChar)).toList.head?.any isNameStart = true
        rw [String.toList_ofList, List.takeWhile_cons_of_pos (isTypeChar_of_isNameStart hc),
          List.head?_cons]
        exact hc
      next => cases h

theorem gives_sized (base : String) (bits : Nat) :
  Gives Ty.IsWritten (liftM (sized base bits))
  := by
  rw [sized]
  split
  next h => exact gives_pure h.2
  next =>
    split
    next h => exact gives_pure h.2
    next => exact gives_throw _

theorem gives_width (size : Nat) (base : String) {unsized : Ty} (h : unsized.IsWritten) :
  Gives Ty.IsWritten (width size base unsized)
  := by
  refine (gives_true (eat '<')).bind fun found _ => ?_
  split
  next =>
    refine (gives_true number).bind fun bits _ => (gives_true (expect size '>')).bind fun _ _ => ?_
    split
    next => exact (gives_throw _).bind fun _ h => h
    next => exact gives_sized base bits
  next => exact gives_pure h

/-- All types that are read can be written. -/
theorem gives_isWritten (size bound : Nat) :
  Gives Ty.IsWritten (type size bound) ∧ Gives Ty.IsWritten (part size bound) ∧
    Gives typesWritten (parts size bound)
  := by
  induction bound with
  | zero => exact ⟨gives_throw _, gives_throw _, gives_pure trivial⟩
  | succ bound ih =>
    obtain ⟨htype, hpart, hparts⟩ := ih
    refine ⟨?_, ?_, ?_⟩
    · rw [type]
      refine gives_word.bind fun name hname => ?_
      have hopen := gives_true (expect size '<')
      split
      next => exact gives_throw _
      next => exact gives_width size _ trivial
      next => exact gives_width size _ trivial
      next => exact gives_pure trivial
      next => exact gives_pure trivial
      next => exact gives_pure trivial
      next => exact gives_pure trivial
      next =>
        refine hopen.bind fun _ _ => hpart.bind fun element helement => ?_
        refine (gives_true (expect size ',')).bind fun _ _ => gives_length.bind fun length hlength => ?_
        exact (gives_true (expect size '>')).bind fun _ _ => gives_pure ⟨helement, hlength⟩
      next =>
        refine hopen.bind fun _ _ => hpart.bind fun first hfirst => hparts.bind fun rest hrest => ?_
        exact (gives_true (expect size '>')).bind fun _ _ => gives_pure ⟨by simp, hfirst, hrest⟩
      next =>
        have hresult : ∀ params, typesWritten params → Gives Ty.IsWritten (do
            let result ← part size bound
            expect size '>'
            return .function params result) := fun params hparams => hpart.bind fun result hresult =>
          (gives_true (expect size '>')).bind fun _ _ => gives_pure ⟨hparams, hresult⟩
        refine hopen.bind fun _ _ => (gives_true eatArrow).bind fun found _ => ?_
        split
        next => exact hresult [] trivial
        next =>
          refine hpart.bind fun first hfirst => hparts.bind fun rest hrest => ?_
          refine (gives_true eatArrow).bind fun found _ => ?_
          split
          next => exact hresult _ ⟨hfirst, hrest⟩
          next => exact (gives_throw _).bind fun _ h => h
      next =>
        split
        next hupper =>
          rw [getD_map_false] at hupper
          exact gives_pure ⟨hupper, hname⟩
        next => exact gives_throw _
    · rw [part]
      exact (gives_true (eat '!')).bind fun _ _ => htype
    · rw [parts]
      refine (gives_true (eat ',')).bind fun found _ => ?_
      split
      next => exact hpart.bind fun first hfirst => hparts.bind fun rest hrest => gives_pure ⟨hfirst, hrest⟩
      next => exact gives_pure trivial

end TypeReader

/-- Annotations are read as types that can be written. -/
theorem Ty.isWritten_of_ofText {text : String} {t : Ty} (h : Ty.ofText text = .ok t) :
  t.IsWritten
  := by
  rw [Ty.ofText] at h
  dsimp only at h
  cases hread : TypeReader.type (byteLength text.toList) (3 * text.toList.length + 3) text.toList with
  | error fault => simp [StateT.run, hread, bind, Except.bind] at h
  | ok result =>
    obtain ⟨a, rest⟩ := result
    simp only [StateT.run, hread, bind, Except.bind] at h
    split at h
    next =>
      obtain rfl := Except.ok.inj h
      exact (TypeReader.gives_isWritten _ _).1 _ _ _ hread
    next => cases h

/-! ## Reading written forms -/

/-- The written forms of types, each after a comma. -/
def moreTexts (types : List Ty) : List Char := types.flatMap fun type => ',' :: type.text.toList

/-- The written forms of types between commas. -/
def listTexts : List Ty → List Char
  | [] => []
  | type :: types => type.text.toList ++ moreTexts types

theorem typeTexts_eq_map : ∀ types : List Ty, typeTexts types = types.map Ty.text
  | [] => rfl
  | type :: types => by rw [typeTexts, typeTexts_eq_map types, List.map_cons]

theorem toList_intercalate_typeTexts (types : List Ty) :
  (",".intercalate (typeTexts types)).toList = listTexts types
  := by
  rw [typeTexts_eq_map, String.toList_intercalate, List.map_map]
  cases types with
  | nil => rfl
  | cons type types =>
    rw [List.map_cons, Text.intercalate_cons, List.flatMap_map]
    rfl

section

attribute [local simp] Ty.text

theorem Ty.toList_text_sizedInt (bits : Nat) :
  (Ty.sizedInt bits).text.toList = '!' :: ("int".toList ++ '<' :: (Nat.toDigits 10 bits ++ ['>']))
  := by
  simp
  rfl

theorem Ty.toList_text_sizedFrac (bits : Nat) :
  (Ty.sizedFrac bits).text.toList = '!' :: ("frac".toList ++ '<' :: (Nat.toDigits 10 bits ++ ['>']))
  := by
  simp
  rfl

theorem Ty.toList_text_array (element : Ty) (length : ArrayLength) :
  (Ty.array element length).text.toList
    = '!' :: ("array".toList ++ '<' :: (element.text.toList ++ ',' :: length.text.toList ++ ['>']))
  := by
  simp

theorem Ty.toList_text_tuple (elements : List Ty) :
  (Ty.tuple elements).text.toList = '!' :: ("tuple".toList ++ '<' :: (listTexts elements ++ ['>']))
  := by
  simp [← toList_intercalate_typeTexts]

theorem Ty.toList_text_function (params : List Ty) (result : Ty) :
  (Ty.function params result).text.toList
    = '!' :: ("fn".toList ++ '<' :: (listTexts params ++ '-' :: '>' :: result.text.toList ++ ['>']))
  := by
  simp [← toList_intercalate_typeTexts]

theorem Ty.toList_text_var (name : String) :
  (Ty.var name).text.toList = '!' :: name.toList
  := by
  simp

end

/-- What may come behind a type. -/
def Ends (rest : List Char) : Prop := ∀ c ∈ rest.head?, c ∈ [',', '>', '-']

theorem Ends.isTypeChar (h : Ends rest) :
  ∀ c ∈ rest.head?, isTypeChar c = false
  := by
  intro c hc
  have hnone := h c hc
  simp only [List.mem_cons, List.not_mem_nil, or_false] at hnone
  rcases hnone with rfl | rfl | rfl <;> rfl

namespace TypeReader

variable {α β : Type} {rest : List Char}

/-- What comes after a step is read from the text that the step leaves. -/
theorem bind_eq {m : TypeReader α} {f : α → TypeReader β} {text : List Char} {a : α}
    (h : m text = .ok (a, rest)) :
  (m >>= f) text = f a rest
  := by
  simp [Bind.bind, StateT.bind, Except.bind, h]

theorem word_append {name : String} (hname : name.toList.all isTypeChar = true)
    (hrest : ∀ c ∈ rest.head?, isTypeChar c = false) :
  word (name.toList ++ rest) = .ok (name, rest)
  := by
  rw [List.all_eq_true] at hname
  rw [word_eq, List.takeWhile_append_of_pos hname, List.dropWhile_append_of_pos hname]
  cases rest with
  | nil => simp
  | cons c rest => simp [hrest c rfl]

theorem eat_cons (c : Char) (rest : List Char) :
  eat c (c :: rest) = .ok (true, rest)
  := by
  simp [eat]

theorem eat_eq_false {c : Char} (h : c ∉ rest.head?) :
  eat c rest = .ok (false, rest)
  := by
  cases rest with
  | nil => rfl
  | cons d rest => simp_all [eat, eq_comm]

theorem expect_cons (size : Nat) (c : Char) (rest : List Char) :
  expect size c (c :: rest) = .ok ((), rest)
  := by
  rw [expect, bind_eq (eat_cons c rest)]
  rfl

theorem number_toDigits {n : Nat} (hn : n < twoPow 64) (hrest : Ends rest) :
  number (Nat.toDigits 10 n ++ rest) = .ok (n, rest)
  := by
  have hdigits : ∀ c ∈ Nat.toDigits 10 n, c.isDigit = true := fun c hc =>
    Nat.isDigit_of_mem_toDigits (by decide) (by decide) hc
  have hname : (String.ofList (Nat.toDigits 10 n)).toList.all isTypeChar = true := by
    rw [String.toList_ofList, List.all_eq_true]
    exact fun c => isTypeChar_of_mem_toDigits
  have hword := word_append hname hrest.isTypeChar
  have hvalue : (Nat.toDigits 10 n).foldl (fun n c => 10 * n + (c.toNat - '0'.toNat)) 0 = n :=
    Nat.ofDigitChars_toDigits (by decide) (by decide)
  rw [String.toList_ofList] at hword
  rw [number, bind_eq hword, String.toList_ofList, hvalue, if_pos]
  · rfl
  · simpa [hn] using hdigits

theorem length_append {l : ArrayLength} (h : l.IsWritten) (hrest : Ends rest) :
  length (l.text.toList ++ rest) = .ok (l, rest)
  := by
  cases l with
  | fixed n =>
    obtain ⟨c, digits, hdigits⟩ : ∃ c digits, Nat.toDigits 10 n = c :: digits :=
      List.exists_cons_of_ne_nil Nat.toDigits_ne_nil
    have hc : c.isDigit = true :=
      Nat.isDigit_of_mem_toDigits (b := 10) (n := n) (by decide) (by decide) (by simp [hdigits])
    have hnumber := number_toDigits h hrest
    have htext : (ArrayLength.fixed n).text.toList = c :: digits := by simp [ArrayLength.text, hdigits]
    rw [hdigits, List.cons_append] at hnumber
    rw [htext, List.cons_append]
    change (if c.isDigit then _ else _ : TypeReader ArrayLength) _ = _
    rw [if_pos hc, bind_eq hnumber]
    rfl
  | var name =>
    obtain ⟨c, text, htext, hc⟩ := h.exists_cons
    have hword := word_append h.2 hrest.isTypeChar
    rw [ArrayLength.text, htext, List.cons_append] at *
    change (if c.isDigit then _ else if isNameStart c then _ else _ : TypeReader ArrayLength) _ = _
    rw [if_neg (by simp [isDigit_of_isNameStart hc]), if_pos hc, bind_eq hword]
    rfl

theorem width_eq (size : Nat) (base : String) (unsized : Ty) (hrest : Ends rest) :
  width size base unsized rest = .ok (unsized, rest)
  := by
  have hopen : '<' ∉ rest.head? := fun h => absurd (hrest '<' h) (by decide)
  rw [width, bind_eq (eat_eq_false hopen)]
  rfl

theorem width_toDigits (size : Nat) {base : String} (unsized : Ty) {bits : Nat} {t : Ty} (hbits : bits < twoPow 32)
    (h : sized base bits = .ok t) :
  width size base unsized ('<' :: (Nat.toDigits 10 bits ++ '>' :: rest)) = .ok (t, rest)
  := by
  have hlt : bits < twoPow 64 := hbits.trans (by decide)
  have hclose : Ends ('>' :: rest) := by simp [Ends]
  rw [width, bind_eq (eat_cons _ _), if_pos rfl, bind_eq (number_toDigits hlt hclose),
    bind_eq (expect_cons _ _ _), if_neg (Nat.not_le.mpr hbits), h]
  rfl

end TypeReader

/-! ## Types -/

open TypeReader

/-- A type is read off the front of its written form, whatever may come behind it. -/
def Ty.Reads (t : Ty) : Prop :=
  ∃ payload, t.text.toList = '!' :: payload ∧ ∀ (size bound : Nat) (rest : List Char),
    3 * payload.length ≤ bound → Ends rest → type size (bound + 1) (payload ++ rest) = .ok (t, rest)

section

variable {rest : List Char} {size bound : Nat}

theorem part_append {t : Ty} (h : t.Reads) (hbound : 3 * t.text.toList.length ≤ bound) (hrest : Ends rest) :
  part size bound (t.text.toList ++ rest) = .ok (t, rest)
  := by
  obtain ⟨payload, hpayload, hread⟩ := h
  rw [hpayload, List.length_cons] at hbound
  obtain ⟨bound, rfl⟩ := Nat.exists_eq_add_of_le (show 2 ≤ bound by omega)
  rw [hpayload, List.cons_append, Nat.add_comm 2, part, bind_eq (eat_cons _ _)]
  exact hread size bound rest (by omega) hrest

theorem ends_moreTexts (types : List Ty) (hrest : Ends rest) :
  Ends (moreTexts types ++ rest)
  := by
  cases types with
  | nil => exact hrest
  | cons => simp [Ends, moreTexts]

theorem parts_append {types : List Ty} (h : ∀ t ∈ types, t.Reads) (hbound : 3 * (moreTexts types).length ≤ bound)
    (hrest : Ends rest) (hcomma : ',' ∉ rest.head?) :
  parts size bound (moreTexts types ++ rest) = .ok (types, rest)
  := by
  induction types generalizing bound with
  | nil =>
    cases bound with
    | zero => rfl
    | succ bound =>
      rw [parts, moreTexts, List.flatMap_nil, List.nil_append, bind_eq (eat_eq_false hcomma)]
      rfl
  | cons t types ih =>
    obtain ⟨ht, htypes⟩ := List.forall_mem_cons.mp h
    have htexts : moreTexts (t :: types) = ',' :: (t.text.toList ++ moreTexts types) := by simp [moreTexts]
    rw [htexts] at hbound ⊢
    simp only [List.length_cons, List.length_append] at hbound
    obtain ⟨bound, rfl⟩ := Nat.exists_eq_add_of_le' (show 1 ≤ bound by omega)
    rw [parts, List.cons_append, List.append_assoc, bind_eq (eat_cons _ _), if_pos rfl,
      bind_eq (part_append ht (by omega) (ends_moreTexts types hrest)), bind_eq (ih htypes (by omega))]
    rfl

theorem eatArrow_arrow (rest : List Char) :
  eatArrow ('-' :: '>' :: rest) = .ok (true, rest)
  := rfl

theorem eatArrow_eq_false {t : Ty} (h : t.Reads) :
  eatArrow (t.text.toList ++ rest) = .ok (false, t.text.toList ++ rest)
  := by
  obtain ⟨payload, hpayload, -⟩ := h
  rw [hpayload]
  rfl

theorem ends_close (rest : List Char) :
  Ends ('>' :: rest)
  := by
  simp [Ends]

end

mutual

theorem Ty.IsWritten.reads : ∀ {t : Ty}, t.IsWritten → t.Reads
  | .int, _ => by
    refine ⟨"int".toList, rfl, fun size bound rest _ hrest => ?_⟩
    rw [type, bind_eq (word_append (by decide) hrest.isTypeChar)]
    exact width_eq size _ _ hrest
  | .frac, _ => by
    refine ⟨"frac".toList, rfl, fun size bound rest _ hrest => ?_⟩
    rw [type, bind_eq (word_append (by decide) hrest.isTypeChar)]
    exact width_eq size _ _ hrest
  | .bool, _ => by
    refine ⟨"bool".toList, rfl, fun size bound rest _ hrest => ?_⟩
    rw [type, bind_eq (word_append (by decide) hrest.isTypeChar)]
    rfl
  | .str, _ => by
    refine ⟨"str".toList, rfl, fun size bound rest _ hrest => ?_⟩
    rw [type, bind_eq (word_append (by decide) hrest.isTypeChar)]
    rfl
  | .ptr, _ => by
    refine ⟨"ptr".toList, rfl, fun size bound rest _ hrest => ?_⟩
    rw [type, bind_eq (word_append (by decide) hrest.isTypeChar)]
    rfl
  | .none, _ => by
    refine ⟨"none".toList, rfl, fun size bound rest _ hrest => ?_⟩
    rw [type, bind_eq (word_append (by decide) hrest.isTypeChar)]
    rfl
  | .sizedInt bits, h => by
    refine ⟨_, Ty.toList_text_sizedInt bits, fun size bound rest _ hrest => ?_⟩
    have hsmall : ∀ bits ∈ [8, 16, 32, 64], bits < twoPow 32 := by decide
    rw [List.append_assoc, type, bind_eq (word_append (by decide) (by simp [isTypeChar])), List.cons_append,
      List.append_assoc]
    exact width_toDigits size .int (hsmall bits h) (if_pos ⟨rfl, h⟩)
  | .sizedFrac bits, h => by
    refine ⟨_, Ty.toList_text_sizedFrac bits, fun size bound rest _ hrest => ?_⟩
    have hsmall : ∀ bits ∈ [32, 64], bits < twoPow 32 := by decide
    rw [List.append_assoc, type, bind_eq (word_append (by decide) (by simp [isTypeChar])), List.cons_append,
      List.append_assoc]
    refine width_toDigits size .frac (hsmall bits h) ?_
    rw [sized, if_neg (by simp), if_pos ⟨rfl, h⟩]
  | .array element length, ⟨helement, hlength⟩ => by
    refine ⟨_, Ty.toList_text_array element length, fun size bound rest hbound hrest => ?_⟩
    simp only [List.length_append, List.length_cons] at hbound
    simp only [List.append_assoc, List.cons_append, List.nil_append]
    rw [type, bind_eq (word_append (by decide) (by simp [isTypeChar]))]
    change (expect size '<' >>= _) _ = _
    rw [bind_eq (expect_cons _ _ _), bind_eq (part_append helement.reads (by omega) (by simp [Ends])),
      bind_eq (expect_cons _ _ _), bind_eq (length_append hlength (ends_close rest)), bind_eq (expect_cons _ _ _)]
    rfl
  | .tuple [], ⟨hne, _⟩ => absurd rfl hne
  | .tuple (first :: others), ⟨_, hfirst, hothers⟩ => by
    refine ⟨_, Ty.toList_text_tuple _, fun size bound rest hbound hrest => ?_⟩
    simp only [listTexts, List.length_append, List.length_cons] at hbound
    simp only [listTexts, List.append_assoc, List.cons_append, List.nil_append]
    rw [type, bind_eq (word_append (by decide) (by simp [isTypeChar]))]
    change (expect size '<' >>= _) _ = _
    rw [bind_eq (expect_cons _ _ _),
      bind_eq (part_append hfirst.reads (by omega) (ends_moreTexts others (ends_close rest))),
      bind_eq (parts_append (typesRead hothers) (by omega) (ends_close rest) (by simp)),
      bind_eq (expect_cons _ _ _)]
    rfl
  | .function [] result, ⟨_, hresult⟩ => by
    refine ⟨_, Ty.toList_text_function _ _, fun size bound rest hbound hrest => ?_⟩
    simp only [listTexts, List.length_append, List.length_cons] at hbound
    simp only [listTexts, List.append_assoc, List.cons_append, List.nil_append]
    rw [type, bind_eq (word_append (by decide) (by simp [isTypeChar]))]
    change (expect size '<' >>= _) _ = _
    rw [bind_eq (expect_cons _ _ _), bind_eq (eatArrow_arrow _), if_pos rfl, pure_bind]
    change (part size bound >>= _) _ = _
    rw [bind_eq (part_append hresult.reads (by omega) (ends_close rest)), bind_eq (expect_cons _ _ _)]
    rfl
  | .function (first :: others) result, ⟨⟨hfirst, hothers⟩, hresult⟩ => by
    have harrow : ∀ text, Ends ('-' :: text) := by simp [Ends]
    refine ⟨_, Ty.toList_text_function _ _, fun size bound rest hbound hrest => ?_⟩
    simp only [listTexts, List.length_append, List.length_cons] at hbound
    simp only [listTexts, List.append_assoc, List.cons_append, List.nil_append]
    rw [type, bind_eq (word_append (by decide) (by simp [isTypeChar]))]
    change (expect size '<' >>= _) _ = _
    rw [bind_eq (expect_cons _ _ _), bind_eq (eatArrow_eq_false hfirst.reads)]
    change (part size bound >>= _) _ = _
    rw [bind_eq (part_append hfirst.reads (by omega) (ends_moreTexts others (harrow _))),
      bind_eq (parts_append (typesRead hothers) (by omega) (harrow _) (by simp)), bind_eq (eatArrow_arrow _),
      if_pos rfl, pure_bind]
    change (part size bound >>= _) _ = _
    rw [bind_eq (part_append hresult.reads (by omega) (ends_close rest)), bind_eq (expect_cons _ _ _)]
    rfl
  | .var name, h => by
    refine ⟨_, Ty.toList_text_var name, fun size bound rest _ hrest => ?_⟩
    have hupper : (name.toList.head?.map Char.isUpper).getD false = true := (getD_map_false ..).trans h.1
    rw [type, bind_eq (word_append h.2 hrest.isTypeChar)]
    split
    case h_11 =>
      rw [if_pos hupper]
      rfl
    all_goals exact absurd hupper (by decide)

theorem typesRead : ∀ {types : List Ty}, typesWritten types → ∀ t ∈ types, t.Reads
  | [], _ => by simp
  | _ :: _, ⟨htype, htypes⟩ => List.forall_mem_cons.mpr ⟨htype.reads, typesRead htypes⟩

end

/-- The text of an annotation without its mark reads back as the type. -/
theorem Ty.Reads.ofText {t : Ty} {payload : String} (h : t.Reads) (htext : t.text = "!" ++ payload) :
  Ty.ofText payload = .ok t
  := by
  obtain ⟨chars, hchars, hread⟩ := h
  obtain rfl : payload.toList = chars := by
    rw [htext, String.toList_append] at hchars
    exact List.tail_eq_of_cons_eq hchars
  have hall := hread (byteLength payload.toList) (3 * payload.toList.length + 2) [] (Nat.le_add_right ..)
    (by simp [Ends])
  rw [List.append_nil] at hall
  simp only [Ty.ofText, StateT.run, hall]
  rfl

/-! ## Written forms as tokens -/

/-- Inside an argument list, a text closes all that it opens. -/
def IsBalanced (text : List Char) : Prop :=
  ∀ depth count rest,
    typeArguments (depth + 1) count (text ++ rest) = typeArguments (depth + 1) (count + text.length) rest

theorem isBalanced_nil :
  IsBalanced []
  := fun _ _ _ => rfl

theorem IsBalanced.append {first second : List Char} (hfirst : IsBalanced first) (hsecond : IsBalanced second) :
  IsBalanced (first ++ second)
  := by
  intro depth count rest
  rw [List.append_assoc, hfirst, hsecond, List.length_append, Nat.add_assoc]

theorem isBalanced_arrow :
  IsBalanced ['-', '>']
  := by
  intro depth count rest
  simp [typeArguments]

theorem isBalanced_singleton (h : c ∉ ['<', '-', '>', '[', ']', '(', ')']) (hblank : isBlank c = false) :
  IsBalanced [c]
  := by
  intro depth count rest
  simp only [List.mem_cons, List.not_mem_nil, or_false, not_or] at h
  rw [List.singleton_append, typeArguments, if_neg (by simp [h, hblank])]
  · rfl
  all_goals simp [h]

theorem isBalanced_of_all (h : text.all isTypeChar = true) :
  IsBalanced text
  := by
  induction text with
  | nil => exact isBalanced_nil
  | cons c text ih =>
    rw [List.all_cons, Bool.and_eq_true] at h
    obtain ⟨hc, htext⟩ := h
    have hfirst : IsBalanced [c] :=
      isBalanced_singleton (not_mem_of_all (by decide) hc) (isBlank_of_isTypeChar hc)
    exact hfirst.append (ih htext)

theorem IsBalanced.bracket (h : IsBalanced inner) :
  IsBalanced ('<' :: (inner ++ ['>']))
  := by
  intro depth count rest
  rw [List.cons_append, typeArguments, List.append_assoc, h, List.singleton_append, typeArguments,
    if_neg (by omega), List.length_cons, List.length_append, List.length_singleton]
  congr 1
  omega

/-- A mark and a name, with balanced arguments if there are any. -/
inductive IsAnnotation : List Char → Prop
  | plain {name : List Char} (hname : IsWord isNameStart name) : IsAnnotation ('!' :: name)
  | applied {name inner : List Char} (hname : IsWord isNameStart name) (hinner : IsBalanced inner) :
    IsAnnotation ('!' :: (name ++ '<' :: (inner ++ ['>'])))

theorem IsAnnotation.isBalanced (h : IsAnnotation text) :
  IsBalanced text
  := by
  have hmark : IsBalanced ['!'] := isBalanced_singleton (by decide) (by decide)
  cases h with
  | plain hname => exact hmark.append (isBalanced_of_all hname.2)
  | applied hname hinner => exact hmark.append ((isBalanced_of_all hname.2).append hinner.bracket)

/-- Behind a mark the lexer takes a name as far as it goes. -/
theorem longest_annotated (hc : isNameStart c = true) :
  Pattern.longest ('!' :: c :: text) = (.annotated, 2 + Pattern.run isTypeChar text)
  := by
  have hannotated : Pattern.annotated.length ('!' :: c :: text) = 2 + Pattern.run isTypeChar text := by
    rw [Pattern.length, if_pos hc]
  have hsymbol : Pattern.symbol.length ('!' :: c :: text) = 1 := by
    have hmark : isSymbolChar '!' = true := by decide
    rw [Pattern.length, Pattern.run, List.takeWhile_cons_of_pos hmark,
      List.takeWhile_cons_of_neg (by simp [isSymbolChar_of_isNameStart hc])]
    rfl
  have hnone : ∀ p : Pattern, p ≠ .annotated → p ≠ .symbol → p.length ('!' :: c :: text) = 0 := by
    intro p hannotated hsymbol
    cases p <;> first | contradiction | rfl
  simp [Pattern.longest, Pattern.all, hannotated, hsymbol, hnone, Pattern.better]

/-- A name with a mark is a token together with the argument list behind it. -/
theorem scan_annotated (hname : IsWord isNameStart name) (hrest : ∀ c ∈ rest.head?, isTypeChar c = false) {m : Nat}
    (hm : (if rest.head? = some '<' then typeArguments 0 0 rest else 0) = m) :
  scan '!' (name ++ rest)
    = (name.length + 1 + m, .token (.typeText (String.ofList (name ++ rest.take m))))
  := by
  obtain ⟨c, name, rfl, hc⟩ := hname.exists_cons
  have hrun : Pattern.run isTypeChar (name ++ rest) = name.length := by
    have hall := List.forall_mem_cons.mp (List.all_eq_true.mp hname.2)
    rw [Pattern.run, List.takeWhile_append_of_pos hall.2]
    cases rest with
    | nil => simp
    | cons d rest => simp [hrest d rfl]
  have hlength : ('!' :: c :: name).length = 2 + name.length := by
    rw [List.length_cons, List.length_cons, Nat.add_comm 2]
  have htake : ('!' :: (c :: name ++ rest)).take (2 + name.length) = '!' :: c :: name :=
    List.take_left' hlength
  have hdrop : ('!' :: (c :: name ++ rest)).drop (2 + name.length) = rest := List.drop_left' hlength
  rw [scan, List.cons_append, longest_annotated hc, hrun]
  dsimp only
  rw [← List.cons_append, htake, hdrop, hm, if_neg (by omega), List.length_cons, Nat.add_comm 2]
  rfl

theorem typeArguments_bracket (h : IsBalanced inner) :
  typeArguments 0 0 ('<' :: (inner ++ ['>'])) = ('<' :: (inner ++ ['>'])).length
  := by
  rw [typeArguments, h, typeArguments, if_pos rfl, List.length_cons, List.length_append, List.length_singleton]
  omega

/-- An annotation is a single token. -/
theorem scan_of_isAnnotation (h : IsAnnotation ('!' :: text)) :
  scan '!' text = (text.length + 1, .token (.typeText (String.ofList text)))
  := by
  cases h with
  | plain hname =>
    have hnil : ∀ c ∈ ([] : List Char).head?, isTypeChar c = false := by simp
    simpa using scan_annotated hname hnil rfl
  | applied hname hinner =>
    rw [scan_annotated hname (by simp [isTypeChar]) rfl, List.head?_cons, if_pos rfl,
      typeArguments_bracket hinner, List.take_length, List.length_append, Nat.add_right_comm]

/-- The tokens of an annotation. -/
theorem lex_of_isAnnotation {payload : String} (h : IsAnnotation ('!' :: payload.toList)) :
  Token.lex ("!" ++ payload) = ⟨[⟨.typeText payload, ⟨0, byteLength ('!' :: payload.toList)⟩⟩,
    ⟨.stop, .point (byteLength ('!' :: payload.toList))⟩], []⟩
  := by
  have htext : ("!" ++ payload).toList = '!' :: payload.toList := by simp
  have hpieces : pieces 0 0 ('!' :: payload.toList)
      = [.token ⟨.typeText payload, ⟨0, byteLength ('!' :: payload.toList)⟩⟩] := by
    have hlength : payload.toList.length + 1 = ('!' :: payload.toList).length := rfl
    rw [pieces_cons, scan_of_isAnnotation h, hlength, List.take_length, List.drop_length, pieces, Nat.zero_add,
      String.ofList_toList]
    rfl
  rw [Token.lex, Piece.ofSource, htext, hpieces]
  rfl

theorem isBalanced_toDigits (n : Nat) :
  IsBalanced (Nat.toDigits 10 n)
  := isBalanced_of_all (List.all_eq_true.mpr fun _ => isTypeChar_of_mem_toDigits)

theorem isBalanced_comma :
  IsBalanced [',']
  := isBalanced_singleton (by decide) (by decide)

theorem ArrayLength.IsWritten.isBalanced {l : ArrayLength} (h : l.IsWritten) :
  IsBalanced l.text.toList
  := by
  cases l with
  | fixed n => simpa [ArrayLength.text] using isBalanced_toDigits n
  | var name => exact isBalanced_of_all h.2

theorem isBalanced_listTexts {types : List Ty} (h : ∀ t ∈ types, IsAnnotation t.text.toList) :
  IsBalanced (listTexts types)
  := by
  have hmore : ∀ types : List Ty, (∀ t ∈ types, IsAnnotation t.text.toList) → IsBalanced (moreTexts types) := by
    intro types h
    induction types with
    | nil => exact isBalanced_nil
    | cons t types ih =>
      obtain ⟨ht, htypes⟩ := List.forall_mem_cons.mp h
      exact (isBalanced_comma.append ht.isBalanced).append (ih htypes)
  cases types with
  | nil => exact isBalanced_nil
  | cons t types =>
    obtain ⟨ht, htypes⟩ := List.forall_mem_cons.mp h
    exact ht.isBalanced.append (hmore types htypes)

mutual

/-- Written forms are annotations. -/
theorem Ty.IsWritten.isAnnotation : ∀ {t : Ty}, t.IsWritten → IsAnnotation t.text.toList
  | .int, _ | .frac, _ | .bool, _ | .str, _ | .ptr, _ | .none, _ => .plain (by decide)
  | .sizedInt bits, _ => by
    rw [Ty.toList_text_sizedInt]
    exact .applied (by decide) (isBalanced_toDigits bits)
  | .sizedFrac bits, _ => by
    rw [Ty.toList_text_sizedFrac]
    exact .applied (by decide) (isBalanced_toDigits bits)
  | .array element length, ⟨helement, hlength⟩ => by
    rw [Ty.toList_text_array]
    exact .applied (by decide) (helement.isAnnotation.isBalanced.append (isBalanced_comma.append hlength.isBalanced))
  | .tuple elements, ⟨_, helements⟩ => by
    rw [Ty.toList_text_tuple]
    exact .applied (by decide) (isBalanced_listTexts (typesAnnotations helements))
  | .function params result, ⟨hparams, hresult⟩ => by
    rw [Ty.toList_text_function]
    refine .applied (by decide) ?_
    exact (isBalanced_listTexts (typesAnnotations hparams)).append
      (isBalanced_arrow.append hresult.isAnnotation.isBalanced)
  | .var name, h => by
    rw [Ty.toList_text_var]
    exact .plain h.isNameStart

theorem typesAnnotations : ∀ {types : List Ty}, typesWritten types → ∀ t ∈ types, IsAnnotation t.text.toList
  | [], _ => by simp
  | _ :: _, ⟨htype, htypes⟩ => List.forall_mem_cons.mpr ⟨htype.isAnnotation, typesAnnotations htypes⟩

end

/--
What types stand for reads back: the written form is a single token over the whole of the text, and
the text of the token reads as a type that stands for the same.
-/
theorem Ty.readsBack {text : String} {a : Ty} (h : Ty.ofText text = .ok a) :
  ∃ payload, a.resolve.text = "!" ++ payload ∧
    Token.lex a.resolve.text = ⟨[⟨.typeText payload, ⟨0, byteLength a.resolve.text.toList⟩⟩,
      ⟨.stop, .point (byteLength a.resolve.text.toList)⟩], []⟩ ∧
    ∃ b, Ty.ofText payload = .ok b ∧ b.resolve = a.resolve
  := by
  have hwritten := (Ty.isWritten_of_ofText h).resolve
  obtain ⟨chars, hchars, -⟩ := hwritten.reads
  obtain ⟨payload, rfl⟩ : ∃ payload : String, payload.toList = chars := ⟨.ofList chars, String.toList_ofList⟩
  have htext : a.resolve.text = "!" ++ payload := by simp [← String.toList_inj, hchars]
  have hlexed := lex_of_isAnnotation (hchars ▸ hwritten.isAnnotation)
  rw [← htext, ← hchars] at hlexed
  exact ⟨payload, htext, hlexed, a.resolve, hwritten.reads.ofText htext, a.resolve_resolve⟩

/-- A function of a function without parameters, a length that varies and a width that is resolved away. -/
def nestedType : Ty :=
  .function [.function [] (.array (.sizedInt 64) (.var "N")), .tuple [.var "T"]] .none

theorem Ty.readsBack_nestedType :
  Ty.ofText "fn<!fn<->!array<int<64>,N>>,tuple<T>->!none>" = .ok nestedType ∧
    ∃ payload, nestedType.resolve.text = "!" ++ payload ∧
      ∃ b, Ty.ofText payload = .ok b ∧ b.resolve = nestedType.resolve
  := by
  have hread : Ty.ofText "fn<!fn<->!array<int<64>,N>>,tuple<T>->!none>" = .ok nestedType := by
    have hsome : (Ty.ofText "fn<!fn<->!array<int<64>,N>>,tuple<T>->!none>").toOption = some nestedType := by
      decide +kernel
    cases hresult : Ty.ofText "fn<!fn<->!array<int<64>,N>>,tuple<T>->!none>" with
    | ok t => rwa [hresult, Except.toOption, Option.some.injEq, ← Except.ok.injEq] at hsome
    | error fault =>
      rw [hresult] at hsome
      cases hsome
  obtain ⟨payload, htext, -, hback⟩ := Ty.readsBack hread
  exact ⟨hread, payload, htext, hback⟩

end FormCompiler
