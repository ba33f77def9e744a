import FormCompiler.Proofs.Text.Number
import FormCompiler.Proofs.Word.Range
import FormCompiler.Token.Lexer
import Mathlib.Data.Nat.Digits.Defs

/-!
# Integer literals denote their value

An integer literal is a text that one of the two patterns of integers matches: a sign, for bases other than
ten a zero and the mark of the base, and then what is written behind them. Without its underscores that is
the digits of a number, and the literal denotes this number if it is one of the language. Otherwise reading
it says what is wrong: that there is no digit, which character is the first that is no digit of the base, or
that the number is out of range.
-/

namespace FormCompiler

variable {radix : Nat}

/-! ## Digits -/

/-- The place of a character among the digits, of which there are sixteen; letters count in either case. -/
def digitRank (c : Char) : Nat := "0123456789abcdef".toList.idxOf c.toLower

/-- Whether a character is a digit of a base. -/
def IsDigitOf (radix : Nat) (c : Char) : Prop := digitRank c < radix

/-- The number that digits of a base denote, the most significant digit first. -/
def digitsNumber (radix : Nat) (digits : List Char) : Nat := Nat.ofDigits radix (digits.reverse.map digitRank)

/-- A magnitude with a sign. -/
def withSign (negative : Bool) (magnitude : Nat) : Int := if negative then -magnitude else magnitude

/-- The place of a character among the digits, by the range of characters that it is in. -/
def rangeRank (c : Char) : Nat :=
  if '0' ≤ c ∧ c ≤ '9' then c.toNat - '0'.toNat
  else if 'a' ≤ c ∧ c ≤ 'f' then c.toNat - 'a'.toNat + 10
  else if 'A' ≤ c ∧ c ≤ 'F' then c.toNat - 'A'.toNat + 10
  else 16

private theorem all_digitRank_eq :
  ((List.range 128).all fun n => digitRank (Char.ofNat n) == rangeRank (Char.ofNat n)) = true
  := by decide +kernel

private theorem all_digits_lt :
  ("0123456789abcdef".toList.all fun d => decide (d.toNat < 128)) = true
  := by decide +kernel

/-- The digits are in three ranges of characters. -/
theorem digitRank_eq (c : Char) :
  digitRank c = rangeRank c
  := by
  have hle : ∀ {d : Char}, c ≤ d ↔ c.toNat ≤ d.toNat := Iff.rfl
  by_cases hascii : c.toNat < 128
  · have heq := List.all_eq_true.mp all_digitRank_eq c.toNat (List.mem_range.mpr hascii)
    rwa [Char.ofNat_toNat, beq_iff_eq] at heq
  · have hlower : c.toLower = c := by
      refine dif_neg ?_
      rintro ⟨-, hz⟩
      have hupper : c.toNat ≤ 'Z'.toNat := hz
      exact absurd hupper (by simp; omega)
    have hmem : c ∉ "0123456789abcdef".toList := fun hc =>
      hascii (of_decide_eq_true (List.all_eq_true.mp all_digits_lt c hc))
    rw [digitRank, hlower, List.idxOf_of_notMem hmem, rangeRank, if_neg, if_neg, if_neg]
    · rfl
    all_goals
      rintro ⟨-, hhigh⟩
      rw [hle] at hhigh
      simp at hhigh
      omega

theorem digitValue?_eq (hradix : radix ≤ 16) (c : Char) :
  Text.digitValue? radix c = if digitRank c < radix then some (digitRank c) else none
  := by
  have hlast : ¬ 16 < radix := Nat.not_lt.mpr hradix
  unfold Text.digitValue?
  rw [digitRank_eq, rangeRank]
  split_ifs <;> simp_all

theorem isNone_digitValue? (hradix : radix ≤ 16) (c : Char) :
  (Text.digitValue? radix c).isNone = true ↔ ¬ IsDigitOf radix c
  := by
  rw [digitValue?_eq hradix, IsDigitOf]
  split_ifs with h <;> simp [h]

theorem digitsNumber_cons (radix : Nat) (c : Char) (digits : List Char) :
  digitsNumber radix (c :: digits) = digitsNumber radix digits + radix ^ digits.length * digitRank c
  := by
  simp [digitsNumber, Nat.ofDigits_append]

theorem digitsValue?_eq (hradix : radix ≤ 16) {digits : List Char} (h : ∀ c ∈ digits, IsDigitOf radix c)
    (value : Nat) :
  Text.digitsValue? radix value digits = some (radix ^ digits.length * value + digitsNumber radix digits)
  := by
  induction digits generalizing value with
  | nil => simp [Text.digitsValue?, digitsNumber]
  | cons c digits ih =>
    obtain ⟨hc, hdigits⟩ := List.forall_mem_cons.mp h
    rw [Text.digitsValue?, digitValue?_eq hradix, if_pos (show _ < _ from hc), Option.bind_some, ih hdigits, digitsNumber_cons,
      List.length_cons, pow_succ]
    congr 1
    ring

/-- Digits of a base, if there are any, are read as the number that they denote, if it is below the limit. -/
theorem nat?_of_digits {limit : Nat} (hradix : radix ≤ 16) {digits : List Char} (hne : digits ≠ [])
    (h : ∀ c ∈ digits, IsDigitOf radix c) :
  Text.nat? radix limit digits = if digitsNumber radix digits < limit then some (digitsNumber radix digits) else none
  := by
  have hplus : digits.head? ≠ some '+' := by
    intro hhead
    have hdigit := h '+' (List.mem_of_mem_head? hhead)
    exact absurd (Nat.lt_of_lt_of_le hdigit hradix) (by decide)
  rw [Text.nat?_of_head?_ne_plus hplus, Text.magnitude?, if_neg (by simp [hne]), digitsValue?_eq hradix h]
  simp [Option.filter]

/-! ## Signs -/

namespace Literal

variable {text written : List Char}

/-- A sign is put in front of a magnitude where there is room for the integer. -/
theorem applySign_eq (negative : Bool) (magnitude : Nat) :
  applySign negative magnitude
    = if isInt64 (withSign negative magnitude) then .ok (withSign negative magnitude) else .error .integerOverflow
  := by
  have hrange : isInt64 (withSign negative magnitude) = true
      ↔ magnitude < twoPow 63 ∨ negative = true ∧ magnitude = twoPow 63 := by
    have htwo : twoPow 63 = 2 ^ 63 := rfl
    rw [isInt64_iff, htwo]
    cases negative <;> simp only [withSign] <;> grind
  unfold applySign
  by_cases hleast : negative = true ∧ magnitude = twoPow 63
  · rw [if_pos (by simp [hleast]), if_pos (hrange.mpr (.inr hleast)), withSign, if_pos hleast.1, hleast.2]
  · rw [if_neg (by simpa using hleast)]
    exact ite_congr (propext (hrange.trans (or_iff_left hleast)).symm) (fun _ => rfl) fun _ => rfl

/-- Digits of a base are read as the number that they denote, if it is one of the language. -/
theorem readMagnitude_eq (negative : Bool) (hradix : radix ≤ 16) {digits : List Char} (hne : digits ≠ [])
    (h : ∀ c ∈ digits, IsDigitOf radix c) :
  readMagnitude negative radix digits
    = if isInt64 (withSign negative (digitsNumber radix digits))
      then .ok (withSign negative (digitsNumber radix digits)) else .error .integerOverflow
  := by
  rw [readMagnitude, nat?_of_digits hradix hne h]
  by_cases hlimit : digitsNumber radix digits < twoPow 64
  · rw [if_pos hlimit]
    exact applySign_eq negative _
  · have hlarge : ¬ isInt64 (withSign negative (digitsNumber radix digits)) = true := by
      have htwo : twoPow 64 = 2 ^ 64 := rfl
      rw [isInt64_iff]
      cases negative <;> simp [withSign] <;> omega
    rw [if_neg hlimit, if_neg hlarge]

/-! ## Literals -/

/-- The marks of bases. -/
def marks : List (Char × Nat) := [('x', 16), ('X', 16), ('o', 8), ('O', 8), ('b', 2), ('B', 2)]

/-- The texts of integers: which pattern is theirs, whether there is a minus sign, the base, and what is written
behind the sign and the mark. -/
inductive Spells : Pattern → Bool → Nat → List Char → List Char → Prop
  | decimal {negative : Bool} {first : Char} {rest : List Char} (hfirst : first.isDigit = true)
    (hrest : ∀ c ∈ rest, isDigitChar c = true) :
    Spells .integer negative 10 (first :: rest) ((if negative then ['-'] else []) ++ first :: rest)
  | marked {negative : Bool} {mark : Char} {radix : Nat} {written : List Char} (hmark : (mark, radix) ∈ marks)
    (hwritten : ∀ c ∈ written, isTypeChar c = true) :
    Spells .marked negative radix written ((if negative then ['-'] else []) ++ '0' :: mark :: written)

/-- What reading comes to, of digits of a base that are behind a sign. -/
structure Denotes (negative : Bool) (radix : Nat) (digits : List Char) (result : Except LexErrorKind Int) : Prop where
  ok_iff : ∀ n, result = .ok n ↔ digits ≠ [] ∧ (∀ c ∈ digits, IsDigitOf radix c)
    ∧ n = withSign negative (digitsNumber radix digits) ∧ -2 ^ 63 ≤ n ∧ n ≤ 2 ^ 63 - 1
  missing_iff : result = .error (.missingDigits radix) ↔ digits = []
  invalid_iff : ∀ c, result = .error (.invalidDigit c radix) ↔ ∃ before after,
    digits = before ++ c :: after ∧ (∀ d ∈ before, IsDigitOf radix d) ∧ ¬ IsDigitOf radix c
  overflow_iff : result = .error .integerOverflow ↔ digits ≠ [] ∧ (∀ c ∈ digits, IsDigitOf radix c)
    ∧ ¬ (-2 ^ 63 ≤ withSign negative (digitsNumber radix digits)
      ∧ withSign negative (digitsNumber radix digits) ≤ 2 ^ 63 - 1)

section

variable {negative : Bool} {radix : Nat} {digits : List Char}

theorem denotes_missing (negative : Bool) (radix : Nat) :
  Denotes negative radix [] (.error (.missingDigits radix))
  := by
  constructor <;> simp

/-- The first character that is no digit is found. -/
theorem find?_eq_some_iff (hradix : radix ≤ 16) {c : Char} :
  (digits.find? fun c => (Text.digitValue? radix c).isNone) = some c ↔ ∃ before after,
    digits = before ++ c :: after ∧ (∀ d ∈ before, IsDigitOf radix d) ∧ ¬ IsDigitOf radix c
  := by
  have hdigit : ∀ d, (!(Text.digitValue? radix d).isNone) = true ↔ IsDigitOf radix d := by
    intro d
    rw [Bool.not_eq_true', ← Bool.not_eq_true, isNone_digitValue? hradix, not_not]
  rw [List.find?_eq_some_iff_append, isNone_digitValue? hradix]
  constructor
  · rintro ⟨hc, before, after, heq, hbefore⟩
    exact ⟨before, after, heq, fun d hd => (hdigit d).mp (hbefore d hd), hc⟩
  · rintro ⟨before, after, heq, hbefore, hc⟩
    exact ⟨hc, before, after, heq, fun d hd => (hdigit d).mpr (hbefore d hd)⟩

theorem denotes_invalid (hradix : radix ≤ 16) {bad : Char}
    (h : (digits.find? fun c => (Text.digitValue? radix c).isNone) = some bad) :
  Denotes negative radix digits (.error (.invalidDigit bad radix))
  := by
  obtain ⟨before, after, heq, -, hbad⟩ := (find?_eq_some_iff hradix).mp h
  have hmem : bad ∈ digits := by simp [heq]
  constructor
  · simp only [reduceCtorEq, false_iff]
    exact fun n hn => hbad (hn.2.1 bad hmem)
  · simp [heq]
  · intro c
    rw [← find?_eq_some_iff hradix, h]
    simp
  · simp only [Except.error.injEq, reduceCtorEq, false_iff]
    exact fun hn => hbad (hn.2.1 bad hmem)

theorem denotes_value (hne : digits ≠ []) (h : ∀ c ∈ digits, IsDigitOf radix c) :
  Denotes negative radix digits
    (if isInt64 (withSign negative (digitsNumber radix digits))
      then .ok (withSign negative (digitsNumber radix digits)) else .error .integerOverflow)
  := by
  have hvalid : ∀ c, ¬ ∃ before after, digits = before ++ c :: after ∧ (∀ d ∈ before, IsDigitOf radix d)
      ∧ ¬ IsDigitOf radix c := by
    rintro c ⟨before, after, rfl, -, hc⟩
    exact hc (h c (by simp))
  have hrange := @isInt64_iff (withSign negative (digitsNumber radix digits))
  rw [← Int.le_sub_one_iff] at hrange
  split
  · next hfits =>
    constructor
    · intro n
      rw [Except.ok.injEq]
      constructor
      · rintro rfl
        exact ⟨hne, h, rfl, hrange.mp hfits⟩
      · exact fun hn => hn.2.2.1.symm
    · simp [hne]
    · simpa using hvalid
    · simp only [reduceCtorEq, false_iff]
      exact fun hn => hn.2.2 (hrange.mp hfits)
  · next hfits =>
    constructor
    · simp only [reduceCtorEq, false_iff]
      rintro n ⟨-, -, rfl, hn⟩
      exact hfits (hrange.mpr hn)
    · simp [hne]
    · simpa using hvalid
    · exact ⟨fun _ => ⟨hne, h, fun hn => hfits (hrange.mpr hn)⟩, fun _ => rfl⟩

end

/-! ## Patterns -/

theorem run_eq_length {p : Char → Bool} (h : Pattern.run p text = text.length) :
  ∀ c ∈ text, p c = true
  := by
  have hall : text.takeWhile p = text := (List.takeWhile_prefix p).eq_of_length h
  exact List.all_eq_true.mp (hall ▸ List.all_takeWhile)

/-- If a text with an optional sign is matched as a whole, so is what stands behind the sign. -/
theorem exists_of_signed {length : List Char → Nat} (hnil : length [] = 0) (hne : text ≠ [])
    (h : Pattern.signed length text = text.length) :
  ∃ (negative : Bool) (body : List Char), text = (if negative then ['-'] else []) ++ body ∧ body ≠ []
    ∧ length body = body.length
  := by
  unfold Pattern.signed at h
  split at h
  · next body =>
    split at h
    · simp at h
    · next hlength =>
      refine ⟨true, body, rfl, ?_, by simpa using h⟩
      rintro rfl
      exact hlength hnil
  · exact ⟨false, text, rfl, hne, h⟩

/-- A text that the pattern of decimal integers matches as a whole. -/
theorem spells_of_integer (hne : text ≠ []) (h : Pattern.integer.length text = text.length) :
  ∃ negative written, Spells .integer negative 10 written text
  := by
  obtain ⟨negative, body, rfl, hbody, hlength⟩ := exists_of_signed rfl hne h
  obtain ⟨first, rest, rfl⟩ := List.exists_cons_of_ne_nil hbody
  rw [Pattern.decimalRun] at hlength
  split at hlength
  · next hfirst =>
    rw [List.length_cons, Nat.add_comm, Nat.add_right_cancel_iff] at hlength
    exact ⟨negative, first :: rest, .decimal hfirst (run_eq_length hlength)⟩
  · simp at hlength

/-- A text that the pattern of integers with a mark matches as a whole. -/
theorem spells_of_marked (hne : text ≠ []) (h : Pattern.marked.length text = text.length) :
  ∃ negative radix written, Spells .marked negative radix written text
  := by
  obtain ⟨negative, body, rfl, hbody, hlength⟩ := exists_of_signed rfl hne h
  unfold Pattern.markedRun at hlength
  split at hlength
  · next mark written =>
    split at hlength
    · next hmark =>
      have hmarks : mark ∈ marks.map (·.1) := hmark
      obtain ⟨⟨_, radix⟩, hmem, rfl⟩ := List.mem_map.mp hmarks
      rw [List.length_cons, List.length_cons, Nat.add_comm 2, Nat.add_right_cancel_iff (n := 2)] at hlength
      exact ⟨negative, radix, written, .marked hmem (run_eq_length hlength)⟩
    · simp at hlength
  · simp [eq_comm, hbody] at hlength

/-! ## Reading -/

theorem splitSign_sign (negative : Bool) {body : List Char} (h : body.head? ≠ some '-') :
  splitSign ((if negative then ['-'] else []) ++ body) = (negative, body)
  := by
  cases negative with
  | true => rfl
  | false =>
    unfold splitSign
    split
    · next heq => simp [show body = _ from heq] at h
    · rfl

theorem isDigitOf_ten {c : Char} (h : c.isDigit = true) :
  IsDigitOf 10 c
  := by
  have hrange : '0' ≤ c ∧ c ≤ '9' := by
    simpa [Char.isDigit, Char.le_def] using h
  have hle : c.toNat ≤ '9'.toNat := hrange.2
  rw [IsDigitOf, digitRank_eq, rangeRank, if_pos hrange]
  simp at hle ⊢
  omega

theorem radixOf_of_mem_marks :
  ∀ marked ∈ marks, radixOf marked.1 = marked.2 ∧ marked.2 ≤ 16
  := by decide

/-- A decimal literal has only digits. -/
theorem denotes_parseDecimal {negative : Bool} (h : Spells .integer negative radix written text) :
  Denotes negative radix (dropSeparators written) (parseDecimal text)
  := by
  cases h with
  | @decimal _ first rest hfirst hrest =>
    have hsign : (first :: rest).head? ≠ some '-' := by
      rintro ⟨⟩
      contradiction
    have hseparator : first ≠ '_' := by
      rintro rfl
      contradiction
    have hne : dropSeparators (first :: rest) ≠ [] := by
      simp [dropSeparators, hseparator]
    have hdigits : ∀ c ∈ dropSeparators (first :: rest), IsDigitOf 10 c := by
      intro c hc
      simp only [dropSeparators, List.mem_filter, List.mem_cons, bne_iff_ne] at hc
      rcases hc with ⟨rfl | hc, hkept⟩
      · exact isDigitOf_ten hfirst
      · have hchar := hrest c hc
        rw [isDigitChar, Bool.or_eq_true, beq_iff_eq, or_iff_left hkept] at hchar
        exact isDigitOf_ten hchar
    have hparse : parseDecimal ((if negative then ['-'] else []) ++ first :: rest)
        = readMagnitude negative 10 (dropSeparators (first :: rest)) := by
      rw [parseDecimal, splitSign_sign negative hsign]
    rw [hparse, readMagnitude_eq negative (by decide) hne hdigits]
    exact denotes_value hne hdigits

/-- A literal with a mark may have other characters than the digits of the base, or none. -/
theorem denotes_parseMarked {negative : Bool} (h : Spells .marked negative radix written text) :
  Denotes negative radix (dropSeparators written) (parseMarked text)
  := by
  cases h with
  | @marked _ mark _ _ hmark hwritten =>
    obtain ⟨hradix, hle⟩ := radixOf_of_mem_marks _ hmark
    dsimp only at hradix hle
    have hbase : radixOf (('0' :: mark :: written).getD 1 'b') = radix := hradix
    have hrest : ('0' :: mark :: written).drop 2 = written := rfl
    rw [parseMarked, splitSign_sign negative (by simp)]
    dsimp only
    rw [hbase, hrest]
    split
    · next hempty =>
      rw [List.isEmpty_iff.mp hempty]
      exact denotes_missing negative radix
    · next hne =>
      rw [List.isEmpty_iff] at hne
      split
      · next bad hbad => exact denotes_invalid hle hbad
      · next hvalid =>
        have hdigits : ∀ c ∈ dropSeparators written, IsDigitOf radix c := by
          intro c hc
          have hnone := List.find?_eq_none.mp hvalid c hc
          rwa [isNone_digitValue? hle, not_not] at hnone
        rw [readMagnitude_eq negative hle hne hdigits]
        exact denotes_value hne hdigits

/--
A text that a pattern of integers matches as a whole is a sign, the mark of a base if it is not ten, and
what is written behind them; and what reading comes to is what the digits say.
-/
theorem denotes_of_length {text : List Char} (hne : text ≠ []) :
  (Pattern.integer.length text = text.length → ∃ negative written, Spells .integer negative 10 written text
    ∧ Denotes negative 10 (dropSeparators written) (parseDecimal text))
  ∧ (Pattern.marked.length text = text.length → ∃ negative radix written, Spells .marked negative radix written text
    ∧ Denotes negative radix (dropSeparators written) (parseMarked text))
  := by
  constructor
  · intro hlength
    obtain ⟨negative, written, hspells⟩ := spells_of_integer hne hlength
    exact ⟨negative, written, hspells, denotes_parseDecimal hspells⟩
  · intro hlength
    obtain ⟨negative, radix, written, hspells⟩ := spells_of_marked hne hlength
    exact ⟨negative, radix, written, hspells, denotes_parseMarked hspells⟩

/-- The least integer, in base sixteen. -/
theorem denotes_leastInteger :
  "-0x8000_0000_0000_0000".toList ≠ []
  ∧ Pattern.marked.length "-0x8000_0000_0000_0000".toList = "-0x8000_0000_0000_0000".toList.length
  ∧ ∃ negative radix written, Spells .marked negative radix written "-0x8000_0000_0000_0000".toList
    ∧ Denotes negative radix (dropSeparators written) (.ok (-2 ^ 63))
  := by
  have hparse : parseMarked "-0x8000_0000_0000_0000".toList = .ok (-2 ^ 63) := by decide
  have hlength : Pattern.marked.length "-0x8000_0000_0000_0000".toList = "-0x8000_0000_0000_0000".toList.length := by
    decide
  refine ⟨by decide, hlength, ?_⟩
  rw [← hparse]
  exact (denotes_of_length (by decide)).2 hlength

end Literal

end FormCompiler
