import FormCompiler.Proofs.Flow.Items
import FormCompiler.Proofs.Text.Number
import Mathlib

/-!
# Types read back

The written form of a type whose numbers fit their words reads back as the type
(`ValueType.ofText_typeText`). The reader takes the form off the front of any text, and the length of
the form is bound enough for it. What else the readers of lines rely on is here as well: which
characters the form has, that it is closed for lists, and that no blank is around it.
-/

namespace FormCompiler.Flow

variable {t : ValueType}

/-! ## Numbers in types -/

/-- Induction over a type and the types inside it. -/
@[elab_as_elim, induction_eliminator]
theorem ValueType.induct
    {motive : ValueType → Prop} (int : ∀ bits, motive (.int bits))
    (float : ∀ bits, motive (.float bits)) (bool : motive .bool) (str : motive .str)
    (ptr : motive .ptr) (none : motive .none)
    (array : ∀ element length, motive element → motive (.array element length))
    (tuple : ∀ elements, (∀ e ∈ elements, motive e) → motive (.tuple elements))
    (function : ∀ params result, (∀ p ∈ params, motive p) → motive result →
      motive (.function params result))
    (vector : ∀ lane width, motive lane → motive (.vector lane width)) (t : ValueType) :
  motive t
  := by
  induction h : sizeOf t using Nat.strongRecOn generalizing t with
  | _ n ih =>
    subst h
    cases t with
    | int bits => apply int
    | float bits => apply float
    | bool => exact bool
    | str => exact str
    | ptr => exact ptr
    | none => exact none
    | array element length => exact array _ _ (ih _ (by simp; omega) _ rfl)
    | tuple elements =>
      apply tuple
      intro e he
      have hlt := List.sizeOf_lt_of_mem he
      exact ih _ (by simp; omega) _ rfl
    | function params result =>
      apply function
      · intro p hp
        have hlt := List.sizeOf_lt_of_mem hp
        exact ih _ (by simp; omega) _ rfl
      · exact ih _ (by simp) _ rfl
    | vector lane width => exact vector _ _ (ih _ (by simp; omega) _ rfl)

mutual

/-- Whether the numbers of a type fit the words that hold them. -/
def ValueType.Fits : ValueType → Prop
  | .int bits | .float bits => bits < twoPow 32
  | .bool | .str | .ptr | .none => True
  | .array element length => element.Fits ∧ length < twoPow 64
  | .tuple elements => typesFit elements
  | .function params result => typesFit params ∧ result.Fits
  | .vector lane width => lane.Fits ∧ width < twoPow 32

/-- Whether the numbers of several types fit. -/
def typesFit : List ValueType → Prop
  | [] => True
  | type :: types => type.Fits ∧ typesFit types

end

/-! ## Characters -/

/-- The written forms of types, each after a comma. -/
def moreText (types : List ValueType) : List Char :=
  types.flatMap fun type => ',' :: ' ' :: type.text.toList

/-- The written forms of types between commas. -/
def listText : List ValueType → List Char
  | [] => []
  | type :: types => type.text.toList ++ moreText types

section

attribute [local simp] ValueType.text typeTexts

theorem typeTexts_eq_map (types : List ValueType) :
  typeTexts types = types.map ValueType.text
  := by
  induction types with
  | nil => rfl
  | cons type types ih => rw [typeTexts, ih, List.map_cons]

theorem toList_intercalate_typeTexts (types : List ValueType) :
  (", ".intercalate (typeTexts types)).toList = listText types
  := by
  rw [typeTexts_eq_map, String.toList_intercalate, List.map_map]
  cases types with
  | nil => rfl
  | cons type types =>
    rw [List.map_cons, Text.intercalate_cons, List.flatMap_map]
    rfl

theorem toList_text_int (bits : Nat) :
  (ValueType.int bits).text.toList = 'i' :: Nat.toDigits 10 bits
  := by
  simp
  rfl

theorem toList_text_float (bits : Nat) :
  (ValueType.float bits).text.toList = 'f' :: Nat.toDigits 10 bits
  := by
  simp
  rfl

theorem toList_text_array (element : ValueType) (length : Nat) :
  (ValueType.array element length).text.toList
    = '[' :: (element.text.toList ++ (';' :: ' ' :: (Nat.toDigits 10 length ++ [']'])))
  := by
  simp

theorem toList_text_tuple (elements : List ValueType) :
  (ValueType.tuple elements).text.toList = '(' :: (listText elements ++ [')'])
  := by
  rw [← toList_intercalate_typeTexts]
  simp

theorem toList_text_function (params : List ValueType) (result : ValueType) :
  (ValueType.function params result).text.toList
    = 'f' :: 'n' :: '(' ::
      (listText params ++ (')' :: ' ' :: '-' :: '>' :: ' ' :: result.text.toList))
  := by
  rw [← toList_intercalate_typeTexts]
  simp

theorem toList_text_vector (lane : ValueType) (width : Nat) :
  (ValueType.vector lane width).text.toList
    = '<' :: (Nat.toDigits 10 width ++ (' ' :: 'x' :: ' ' :: (lane.text.toList ++ ['>'])))
  := by
  simp

end

theorem not_mem_listText
    {c : Char} {types : List ValueType} (hcomma : c ≠ ',') (hspace : c ≠ ' ')
    (h : ∀ t ∈ types, c ∉ t.text.toList) :
  c ∉ listText types
  := by
  cases types with
  | nil => simp [listText]
  | cons type types =>
    simp only [listText, moreText, List.mem_append, List.mem_flatMap, List.mem_cons, not_or,
      not_exists, not_and] at h ⊢
    exact ⟨h type (.inl rfl), fun t ht => ⟨hcomma, hspace, h t (.inr ht)⟩⟩

/-- The characters other than digits that types are written with. -/
def typeChars : List Char :=
  ['b', 'o', 'l', 's', 't', 'r', 'p', 'n', 'e', 'f', 'i', 'x', '[', ']', '(', ')', ',', ' ', '-',
    '>', ';', '<']

/-- Types are written with digits and a few other characters. -/
theorem not_mem_typeText
    {c : Char} (hdigit : c.isDigit = false) (hc : c ∉ typeChars) (t : ValueType) :
  c ∉ t.text.toList
  := by
  have hdigits : ∀ n, c ∉ Nat.toDigits 10 n := fun _ => Text.not_mem_toDigits hdigit
  simp only [typeChars, List.mem_cons, List.not_mem_nil, or_false, not_or] at hc
  induction t with
  | int bits => simp [toList_text_int, hdigits, hc]
  | float bits => simp [toList_text_float, hdigits, hc]
  | bool | str | ptr | none => simp [ValueType.text, hc]
  | array element length ih => simp [toList_text_array, hdigits, hc, ih]
  | tuple elements ih =>
    have helements := not_mem_listText (by simp [hc]) (by simp [hc]) ih
    simp [toList_text_tuple, hc, helements]
  | function params result ihp ihr =>
    have hparams := not_mem_listText (by simp [hc]) (by simp [hc]) ihp
    simp [toList_text_function, hc, hparams, ihr]
  | vector lane width ih => simp [toList_text_vector, hdigits, hc, ih]

/-- What the last character of a type is not. -/
def isTypeEnd (c : Char) : Bool := !Text.isBlank c && c != '-'

theorem isTypeEnd_of_isDigit {c : Char} (h : c.isDigit = true) :
  isTypeEnd c = true
  := by
  have hrange : 48 ≤ c.toNat ∧ c.toNat ≤ 57 := by
    simpa [Char.isDigit, UInt32.le_iff_toNat_le] using h
  have hne : c ≠ '-' := by
    rintro rfl
    contradiction
  simp [isTypeEnd, Text.isBlank, Text.blankRanges, hne]
  omega

theorem getLast?_typeText (t : ValueType) :
  ∃ c, t.text.toList.getLast? = some c ∧ isTypeEnd c = true
  := by
  have hdigits : ∀ (c : Char) n, ∃ d, (c :: Nat.toDigits 10 n).getLast? = some d ∧ isTypeEnd d = true := by
    intro c n
    have hne : Nat.toDigits 10 n ≠ [] := Nat.toDigits_ne_nil
    use (Nat.toDigits 10 n).getLast hne
    constructor
    · rw [List.getLast?_cons, List.getLast?_eq_some_getLast hne]
      rfl
    · apply isTypeEnd_of_isDigit
      apply Nat.isDigit_of_mem_toDigits (by decide) (by decide) (List.getLast_mem hne)
  induction t with
  | int bits =>
    rw [toList_text_int]
    apply hdigits
  | float bits =>
    rw [toList_text_float]
    apply hdigits
  | bool => exact ⟨'l', by simp [ValueType.text], by decide⟩
  | str | ptr => exact ⟨'r', by simp [ValueType.text], by decide⟩
  | none => exact ⟨'e', by simp [ValueType.text], by decide⟩
  | array element length ih => exact ⟨']', by simp [toList_text_array, List.getLast?_cons], by decide⟩
  | tuple elements ih => exact ⟨')', by simp [toList_text_tuple, List.getLast?_cons], by decide⟩
  | function params result ihp ihr =>
    obtain ⟨c, hlast, hc⟩ := ihr
    exact ⟨c, by simp [toList_text_function, List.getLast?_cons, hlast], hc⟩
  | vector lane width ih => exact ⟨'>', by simp [toList_text_vector, List.getLast?_cons], by decide⟩

/-- The characters that a type starts with. -/
def typeStarts : List Char := ['b', 's', 'p', 'n', 'i', 'f', '[', '(', '<']

theorem head?_typeText (t : ValueType) :
  ∃ c ∈ typeStarts, t.text.toList.head? = some c
  := by
  cases t with
  | int bits => exact ⟨'i', by decide, by rw [toList_text_int]; rfl⟩
  | float bits => exact ⟨'f', by decide, by rw [toList_text_float]; rfl⟩
  | bool => exact ⟨'b', by decide, by simp [ValueType.text]⟩
  | str => exact ⟨'s', by decide, by simp [ValueType.text]⟩
  | ptr => exact ⟨'p', by decide, by simp [ValueType.text]⟩
  | none => exact ⟨'n', by decide, by simp [ValueType.text]⟩
  | array element length => exact ⟨'[', by decide, by rw [toList_text_array]; rfl⟩
  | tuple elements => exact ⟨'(', by decide, by rw [toList_text_tuple]; rfl⟩
  | function params result => exact ⟨'f', by decide, by rw [toList_text_function]; rfl⟩
  | vector lane width => exact ⟨'<', by decide, by rw [toList_text_vector]; rfl⟩

/-! ## Lists of types -/

section

open Read

theorem isListMark_of_isDigit {c : Char} (h : c.isDigit = true) :
  isListMark c = false
  := by
  rw [isListMark, ← Bool.not_eq_true, List.contains_iff_mem]
  intro hmem
  have hnone : ",[](<>)".toList.all (fun d => !d.isDigit) = true := by decide
  have hc := List.all_eq_true.mp hnone c hmem
  rw [h] at hc
  contradiction

theorem isClosed_toDigits (depth : Int) (n : Nat) :
  IsClosed depth (Nat.toDigits 10 n)
  := by
  apply IsClosed.of_plain
  intro c hc
  apply isListMark_of_isDigit
  apply Nat.isDigit_of_mem_toDigits (by decide) (by decide) hc

/-- Inside brackets, commas between types cut nothing. -/
theorem isClosed_listText
    {types : List ValueType} (depth : Int) (hdepth : 0 < depth)
    (h : ∀ t ∈ types, IsClosed depth t.text.toList) :
  IsClosed depth (listText types)
  := by
  have hmore : ∀ more : List ValueType, (∀ t ∈ more, IsClosed depth t.text.toList) →
      IsClosed depth (moreText more) := by
    intro more hmore
    induction more with
    | nil => apply IsClosed.nil
    | cons next more ih =>
      have hcomma : IsClosed depth [','] := by
        apply IsClosed.singleton (by omega)
        intro p
        simp [nesting]
      have hspace : IsClosed depth [' '] := IsClosed.of_plain (by simp [isListMark])
      have hnext := hmore next (by simp)
      have hrest := ih fun t ht => hmore t (by simp [ht])
      exact ((hcomma.append hspace).append hnext).append hrest
  cases types with
  | nil => apply IsClosed.nil
  | cons type types =>
    apply IsClosed.append (h type (by simp))
    exact hmore types fun t ht => h t (by simp [ht])

/-- Types are closed in lists. -/
theorem isClosed_typeText (t : ValueType) {depth : Int} (hdepth : 0 ≤ depth) :
  IsClosed depth t.text.toList
  := by
  have hround : ∀ p, nesting p ')' = -1 := by simp [nesting]
  have hsquare : ∀ p, nesting p ']' = -1 := by simp [nesting]
  induction t generalizing depth with
  | int bits =>
    rw [toList_text_int]
    exact IsClosed.append (s := ['i']) (IsClosed.of_plain (by simp [isListMark])) (isClosed_toDigits _ _)
  | float bits =>
    rw [toList_text_float]
    exact IsClosed.append (s := ['f']) (IsClosed.of_plain (by simp [isListMark])) (isClosed_toDigits _ _)
  | bool | str | ptr | none => exact IsClosed.of_plain (by simp [ValueType.text, isListMark])
  | array element length ih =>
    have hinner : IsClosed (depth + 1) (element.text.toList ++ ([';', ' '] ++ Nat.toDigits 10 length)) :=
      (ih (by omega)).append ((IsClosed.of_plain (by simp [isListMark])).append (isClosed_toDigits _ _))
    have hclosed := hinner.bracket '[' ']' ⟨by decide, by simp [nesting]⟩
      ⟨by decide, hsquare _⟩
    rw [toList_text_array]
    simpa using hclosed
  | tuple elements ih =>
    have hinner := isClosed_listText (depth + 1) (by omega)
      fun t ht => ih t ht (by omega)
    rw [toList_text_tuple]
    exact hinner.bracket '(' ')' ⟨by decide, by simp [nesting]⟩ ⟨by decide, hround _⟩
  | function params result ihp ihr =>
    have hinner := isClosed_listText (depth + 1) (by omega)
      fun t ht => ihp t ht (by omega)
    have hparams := hinner.bracket '(' ')' ⟨by decide, by simp [nesting]⟩
      ⟨by decide, hround _⟩
    have hname : IsClosed depth ['f', 'n'] := IsClosed.of_plain (by simp [isListMark])
    have harrow : IsClosed depth [' ', '-', '>', ' '] := by
      intro previous rest
      simp [listParts_cons, nesting, lastOf, prepend_prepend]
    rw [toList_text_function]
    simpa using (hname.append hparams).append (harrow.append (ihr hdepth))
  | vector lane width ih =>
    have hspace : IsClosed (depth + 1) [' ', 'x', ' '] := IsClosed.of_plain (by simp [isListMark])
    have hinner : IsClosed (depth + 1) (Nat.toDigits 10 width ++ ([' ', 'x', ' '] ++ lane.text.toList)) :=
      (isClosed_toDigits _ _).append (hspace.append (ih (by omega)))
    -- the bracket counts, as the lane does not end in a minus sign
    obtain ⟨c, hlast, hc⟩ := getLast?_typeText lane
    have hclosing : nesting (lastOf (some '<')
        (Nat.toDigits 10 width ++ ([' ', 'x', ' '] ++ lane.text.toList))) '>' = -1 := by
      have hne : c ≠ '-' := by
        rintro rfl
        contradiction
      simp [lastOf, List.getLast?_cons, hlast, nesting, hne]
    have hclosed := hinner.bracket '<' '>' ⟨by decide, by simp [nesting]⟩
      ⟨by decide, hclosing⟩
    rw [toList_text_vector]
    simpa using hclosed

end

/-! ## Reading -/

namespace TypeReader

theorem number_toDigits
    {n : Nat} (whole : String) (rest : List Char) (hn : n < twoPow 64)
    (hrest : ∀ c ∈ rest.head?, c.isDigit = false) :
  number whole (Nat.toDigits 10 n ++ rest) = .ok (n, rest)
  := by
  have hdigits : ∀ c ∈ Nat.toDigits 10 n, c.isDigit = true := fun c hc =>
    Nat.isDigit_of_mem_toDigits (by decide) (by decide) hc
  have htake : (Nat.toDigits 10 n ++ rest).takeWhile Char.isDigit = Nat.toDigits 10 n := by
    rw [List.takeWhile_append_of_pos hdigits]
    cases rest with
    | nil => simp
    | cons c rest => simp [hrest c rfl]
  have hdrop : (Nat.toDigits 10 n ++ rest).dropWhile Char.isDigit = rest := by
    rw [List.dropWhile_append_of_pos hdigits]
    cases rest with
    | nil => simp
    | cons c rest => simp [hrest c rfl]
  simp [number, htake, hdrop, Text.nat64?_toDigits hn]

theorem width_toDigits
    {n : Nat} (whole : String) (rest : List Char) (hn : n < twoPow 32)
    (hrest : ∀ c ∈ rest.head?, c.isDigit = false) :
  width whole (Nat.toDigits 10 n ++ rest) = .ok (n, rest)
  := by
  have hlt : n < twoPow 64 := Nat.lt_of_lt_of_le hn (by decide)
  simp [width, bind, StateT.bind, Except.bind, number_toDigits whole rest hlt hrest, hn, pure, StateT.pure,
    Except.pure]

theorem expect_append (whole token : String) (rest : List Char) :
  expect whole token (token.toList ++ rest) = .ok ((), rest)
  := by
  simp [expect, eat, bind, StateT.bind, Except.bind, pure, StateT.pure, Except.pure]

/-- What comes after a step is read from the text that the step leaves. -/
theorem bind_eq
    {m : TypeReader α} {f : α → TypeReader β} {text rest : List Char} {a : α}
    (h : m text = .ok (a, rest)) :
  (m >>= f) text = f a rest
  := by
  simp [bind, StateT.bind, Except.bind, h]

theorem eat_append (token : String) (rest : List Char) :
  eat token (token.toList ++ rest) = .ok (true, rest)
  := by
  simp [eat]

theorem eat_eq_false
    {token : String} {text : List Char} (h : Text.after? token.toList text = none) :
  eat token text = .ok (false, text)
  := by
  simp [eat, h]

/-- Whether a type is read off the front of every text. -/
def Reads (t : ValueType) : Prop :=
  ∀ (whole : String) (bound : Nat) (rest : List Char), t.text.toList.length < bound →
    (∀ c ∈ rest.head?, c.isDigit = false) →
    type whole bound (t.text.toList ++ rest) = .ok (t, rest)

/-- The types after the first one are read, each after a comma. -/
theorem moreTypes_moreText
    {types : List ValueType} (whole : String) (bound : Nat) (rest : List Char)
    (hreads : ∀ t ∈ types, Reads t) (hbound : (moreText types).length < bound) :
  moreTypes whole bound (moreText types ++ ')' :: rest) = .ok (types, rest)
  := by
  induction types generalizing bound with
  | nil =>
    obtain ⟨bound, rfl⟩ := Nat.exists_eq_succ_of_ne_zero (Nat.ne_of_gt hbound)
    have hend : eat ")" (moreText [] ++ ')' :: rest) = .ok (true, rest) := eat_append ")" rest
    rw [moreTypes, bind_eq hend]
    rfl
  | cons next types ih =>
    obtain ⟨bound, rfl⟩ := Nat.exists_eq_succ_of_ne_zero (Nat.ne_zero_of_lt hbound)
    simp only [moreText, List.flatMap_cons, List.length_append, List.length_cons] at hbound
    have hnot : Text.after? ")".toList (moreText (next :: types) ++ ')' :: rest) = none := by
      simp [moreText, Text.after?]
    have hcomma := expect_append whole ", " (next.text.toList ++ (moreText types ++ ')' :: rest))
    have hsplit : moreText (next :: types) ++ ')' :: rest
        = ", ".toList ++ (next.text.toList ++ (moreText types ++ ')' :: rest)) := by
      simp [moreText]
    have hnext := hreads next (by simp) whole bound (moreText types ++ ')' :: rest) (by omega)
      (by cases types <;> simp [moreText])
    have hrest := @ih bound (fun t ht => hreads t (by simp [ht]))
      (by simp only [moreText]; omega)
    rw [moreTypes, bind_eq (eat_eq_false hnot), if_neg (by simp), hsplit, bind_eq hcomma,
      bind_eq hnext, bind_eq hrest]
    rfl

/-- Types between commas are read up to the parenthesis. -/
theorem types_listText
    {ts : List ValueType} (whole : String) (bound : Nat) (rest : List Char)
    (hreads : ∀ t ∈ ts, Reads t) (hbound : (listText ts).length + 1 < bound) :
  types whole bound (listText ts ++ ')' :: rest) = .ok (ts, rest)
  := by
  obtain ⟨bound, rfl⟩ := Nat.exists_eq_succ_of_ne_zero (Nat.ne_zero_of_lt hbound)
  cases ts with
  | nil =>
    have hend : eat ")" (listText [] ++ ')' :: rest) = .ok (true, rest) := eat_append ")" rest
    rw [types, bind_eq hend]
    rfl
  | cons first ts =>
    simp only [listText, List.length_append] at hbound
    obtain ⟨c, hc, hhead⟩ := head?_typeText first
    have hnot : Text.after? ")".toList (listText (first :: ts) ++ ')' :: rest) = none := by
      obtain ⟨tail, htail⟩ := List.head?_eq_some_iff.mp hhead
      have hne : ')' ≠ c := by
        rintro rfl
        contradiction
      simp [listText, htail, Text.after?, hne]
    have hfirst := hreads first (by simp) whole bound (moreText ts ++ ')' :: rest) (by omega)
      (by cases ts <;> simp [moreText])
    have hmore : ∀ t ∈ ts, Reads t := fun t ht => hreads t (by simp [ht])
    have hrest := moreTypes_moreText whole bound rest hmore (by omega)
    rw [types, bind_eq (eat_eq_false hnot), if_neg (by simp), listText, List.append_assoc,
      bind_eq hfirst, bind_eq hrest]
    rfl

/-! The first characters of a type say of which kind it is. -/

section

variable (whole : String) (bound : Nat) (text : List Char)

theorem eat_skip
    {token : String} {text : List Char} {x y : TypeReader α}
    (h : Text.after? token.toList text = none) :
  (eat token >>= fun found => if found = true then x else y) text = y text
  := by
  rw [bind_eq (eat_eq_false h), if_neg (by simp)]

theorem eat_take {text : List Char} {x y : TypeReader α} (token : String) :
  (eat token >>= fun found => if found = true then x else y) (token.toList ++ text) = x text
  := by
  rw [bind_eq (eat_append token text), if_pos rfl]

theorem type_int :
  type whole (bound + 1) ('i' :: text) = (width whole >>= fun n => pure (.int n)) text
  := by
  rw [type]
  iterate 5 rw [eat_skip (by simp [Text.after?])]
  apply eat_take "i"

theorem type_float (h : text.head? ≠ some 'n') :
  type whole (bound + 1) ('f' :: text) = (width whole >>= fun n => pure (.float n)) text
  := by
  have hnot : Text.after? "fn(".toList ('f' :: text) = none := by
    cases text with
    | nil => rfl
    | cons c text =>
      have hc : 'n' ≠ c := by
        rintro rfl
        exact h rfl
      simp [Text.after?, hc]
  rw [type]
  iterate 4 rw [eat_skip (by simp [Text.after?])]
  rw [eat_skip hnot, eat_skip (by simp [Text.after?])]
  apply eat_take "f"

theorem type_array :
  type whole (bound + 1) ('[' :: text)
    = (type whole bound >>= fun element => expect whole "; " >>= fun _ =>
        number whole >>= fun length => expect whole "]" >>= fun _ =>
        pure (.array element length)) text
  := by
  rw [type]
  iterate 7 rw [eat_skip (by simp [Text.after?])]
  apply eat_take "["

theorem type_tuple :
  type whole (bound + 1) ('(' :: text)
    = (types whole bound >>= fun elements => pure (.tuple elements)) text
  := by
  rw [type]
  iterate 8 rw [eat_skip (by simp [Text.after?])]
  apply eat_take "("

theorem type_function :
  type whole (bound + 1) ('f' :: 'n' :: '(' :: text)
    = (types whole bound >>= fun params => expect whole " -> " >>= fun _ =>
        type whole bound >>= fun result => pure (.function params result)) text
  := by
  rw [type]
  iterate 4 rw [eat_skip (by simp [Text.after?])]
  apply eat_take "fn("

theorem type_vector :
  type whole (bound + 1) ('<' :: text)
    = (width whole >>= fun n => expect whole " x " >>= fun _ =>
        type whole bound >>= fun lane => expect whole ">" >>= fun _ =>
        pure (.vector lane n)) text
  := by
  rw [type]
  iterate 9 rw [eat_skip (by simp [Text.after?])]
  apply eat_take "<"

end

end TypeReader

theorem typesFit_iff (types : List ValueType) :
  typesFit types ↔ ∀ t ∈ types, t.Fits
  := by
  induction types with
  | nil => simp [typesFit]
  | cons type types ih => simp [typesFit, ih]

theorem TypeReader.Reads.of_succ
    (h : ∀ (whole : String) (bound : Nat) (rest : List Char), t.text.toList.length ≤ bound →
      (∀ c ∈ rest.head?, c.isDigit = false) →
      type whole (bound + 1) (t.text.toList ++ rest) = .ok (t, rest)) :
  Reads t
  := by
  intro whole bound rest hbound hrest
  obtain ⟨bound, rfl⟩ := Nat.exists_eq_succ_of_ne_zero (Nat.ne_zero_of_lt hbound)
  exact h whole bound rest (Nat.le_of_lt_succ hbound) hrest

/-- A type whose numbers fit is read off the front of a text. -/
theorem TypeReader.reads_of_fits (h : t.Fits) :
  Reads t
  := by
  induction t with
  | int bits =>
    apply Reads.of_succ
    intro whole bound rest hbound hrest
    have hbits : bits < twoPow 32 := by simpa only [ValueType.Fits] using h
    rw [toList_text_int, List.cons_append, type_int, bind_eq (width_toDigits whole rest hbits hrest)]
    rfl
  | float bits =>
    apply Reads.of_succ
    intro whole bound rest hbound hrest
    have hbits : bits < twoPow 32 := by simpa only [ValueType.Fits] using h
    have hhead : (Nat.toDigits 10 bits ++ rest).head? ≠ some 'n' := by
      obtain ⟨c, digits, hdigits⟩ :=
        List.exists_cons_of_ne_nil (Nat.toDigits_ne_nil (n := bits) (b := 10))
      have hn : 'n' ∉ Nat.toDigits 10 bits := Text.not_mem_toDigits (by decide)
      rw [hdigits] at hn ⊢
      simpa using (List.ne_and_not_mem_of_not_mem_cons hn).1.symm
    rw [toList_text_float, List.cons_append, type_float whole bound _ hhead,
      bind_eq (width_toDigits whole rest hbits hrest)]
    rfl
  | bool =>
    apply Reads.of_succ
    intro whole bound rest hbound hrest
    rw [TypeReader.type]
    apply eat_take "bool"
  | str =>
    apply Reads.of_succ
    intro whole bound rest hbound hrest
    rw [TypeReader.type, eat_skip (by simp [ValueType.text, Text.after?])]
    apply eat_take "str"
  | ptr =>
    apply Reads.of_succ
    intro whole bound rest hbound hrest
    rw [TypeReader.type]
    iterate 2 rw [eat_skip (by simp [ValueType.text, Text.after?])]
    apply eat_take "ptr"
  | none =>
    apply Reads.of_succ
    intro whole bound rest hbound hrest
    rw [TypeReader.type]
    iterate 3 rw [eat_skip (by simp [ValueType.text, Text.after?])]
    apply eat_take "none"
  | array element length ih =>
    apply Reads.of_succ
    intro whole bound rest hbound hrest
    obtain ⟨hfits, hlength⟩ : element.Fits ∧ length < twoPow 64 := by
      simpa only [ValueType.Fits] using h
    rw [toList_text_array] at hbound ⊢
    simp only [List.length_cons, List.length_append, List.length_nil] at hbound
    have helement := ih hfits whole bound
      ("; ".toList ++ (Nat.toDigits 10 length ++ ("]".toList ++ rest))) (by omega) (by simp)
    have hnumber := number_toDigits whole ("]".toList ++ rest) hlength (by simp)
    have htext : '[' :: (element.text.toList ++ (';' :: ' ' :: (Nat.toDigits 10 length ++ [']']))) ++ rest
        = '[' :: (element.text.toList
            ++ ("; ".toList ++ (Nat.toDigits 10 length ++ ("]".toList ++ rest)))) := by simp
    rw [htext, type_array, bind_eq helement, bind_eq (expect_append _ _ _), bind_eq hnumber,
      bind_eq (expect_append _ _ _)]
    rfl
  | tuple elements ih =>
    apply Reads.of_succ
    intro whole bound rest hbound hrest
    have hfits : ∀ e ∈ elements, e.Fits := by
      rw [← typesFit_iff]
      simpa only [ValueType.Fits] using h
    rw [toList_text_tuple] at hbound ⊢
    simp only [List.length_cons, List.length_append, List.length_nil] at hbound
    have helements := types_listText whole bound rest (fun e he => ih e he (hfits e he))
      (by omega)
    rw [List.cons_append, List.append_assoc, List.singleton_append, type_tuple, bind_eq helements]
    rfl
  | function params result ihp ihr =>
    apply Reads.of_succ
    intro whole bound rest hbound hrest
    obtain ⟨hparams, hresult⟩ : (∀ p ∈ params, p.Fits) ∧ result.Fits := by
      rw [← typesFit_iff]
      simpa only [ValueType.Fits] using h
    rw [toList_text_function] at hbound ⊢
    simp only [List.length_cons, List.length_append] at hbound
    have hread := types_listText whole bound (" -> ".toList ++ (result.text.toList ++ rest))
      (fun p hp => ihp p hp (hparams p hp)) (by omega)
    have hread' := ihr hresult whole bound rest (by omega) hrest
    have htext : 'f' :: 'n' :: '(' ::
          (listText params ++ (')' :: ' ' :: '-' :: '>' :: ' ' :: result.text.toList)) ++ rest
        = 'f' :: 'n' :: '(' ::
          (listText params ++ ')' :: (" -> ".toList ++ (result.text.toList ++ rest))) := by simp
    rw [htext, type_function, bind_eq hread, bind_eq (expect_append _ _ _), bind_eq hread']
    rfl
  | vector lane width ih =>
    apply Reads.of_succ
    intro whole bound rest hbound hrest
    obtain ⟨hfits, hwidth⟩ : lane.Fits ∧ width < twoPow 32 := by
      simpa only [ValueType.Fits] using h
    rw [toList_text_vector] at hbound ⊢
    simp only [List.length_cons, List.length_append, List.length_nil] at hbound
    have hlane := ih hfits whole bound (">".toList ++ rest) (by omega) (by simp)
    have hnumber := width_toDigits whole
      (" x ".toList ++ (lane.text.toList ++ (">".toList ++ rest))) hwidth (by simp)
    have htext : '<' :: (Nat.toDigits 10 width ++ (' ' :: 'x' :: ' ' :: (lane.text.toList ++ ['>']))) ++ rest
        = '<' :: (Nat.toDigits 10 width
            ++ (" x ".toList ++ (lane.text.toList ++ (">".toList ++ rest)))) := by simp
    rw [htext, type_vector, bind_eq hnumber, bind_eq (expect_append _ _ _), bind_eq hlane,
      bind_eq (expect_append _ _ _)]
    rfl

/-- The written form of a type whose numbers fit reads back as the type. -/
theorem ValueType.ofText_typeText (h : t.Fits) :
  ValueType.ofText t.text = .ok t
  := by
  have hlength : t.text.toList.length < 2 * t.text.length + 2 := by
    rw [String.length_toList]
    omega
  have hread := TypeReader.reads_of_fits h t.text (2 * t.text.length + 2) [] hlength (by simp)
  rw [List.append_nil] at hread
  simp [ValueType.ofText, StateT.run, hread, bind, Except.bind, pure, Except.pure]

end FormCompiler.Flow
