import FormCompiler.Text.Number
import FormCompiler.Proofs.Text.Split
import FormCompiler.Text.Quoted
import Mathlib.Tactic.SplitIfs

/-!
# Numbers and quoted texts read back

The decimal or hexadecimal digits of a number denote it, and so the readers of words give back every
number of the word. Digits are plain characters: none of them is a separator of a written form.

`Quoted.read_write` says that a quotation denotes the string it was written for, whatever characters
that has, and that it is one line without a line break in it.
-/

namespace FormCompiler.Text

variable {n radix limit : Nat} {text : List Char}

/-! ## Digits -/

theorem not_mem_toDigits {c : Char} (h : c.isDigit = false) :
  c ∉ Nat.toDigits 10 n
  := by
  intro hc
  have hdigit := Nat.isDigit_of_mem_toDigits (by decide) (by decide) hc
  rw [h] at hdigit
  contradiction

private theorem digitValue?_digitChar_sixteen :
  ∀ d : Fin 16, digitValue? 16 (Nat.digitChar d) = some d.val
  := by decide

private theorem digitValue?_digitChar_ten :
  ∀ d : Fin 10, digitValue? 10 (Nat.digitChar d) = some d.val
  := by decide

/-- Whether texts of numbers in a base are understood. -/
def IsBase (radix : Nat) : Prop := radix = 10 ∨ radix = 16

theorem IsBase.one_lt (h : IsBase radix) :
  1 < radix
  := by
  rcases h with rfl | rfl <;> decide

theorem digitValue?_digitChar {d : Nat} (hradix : IsBase radix) (hd : d < radix) :
  digitValue? radix (Nat.digitChar d) = some d
  := by
  rcases hradix with rfl | rfl
  · apply digitValue?_digitChar_ten ⟨d, hd⟩
  · apply digitValue?_digitChar_sixteen ⟨d, hd⟩

theorem digitsValue?_append (radix value : Nat) (digits more : List Char) :
  digitsValue? radix value (digits ++ more)
    = (digitsValue? radix value digits).bind fun n => digitsValue? radix n more
  := by
  induction digits generalizing value with
  | nil => rfl
  | cons c digits ih =>
    rw [List.cons_append, digitsValue?, digitsValue?, Option.bind_assoc]
    congr 1
    funext d
    apply ih

/-- The digits of a number denote it. -/
theorem digitsValue?_toDigits (hradix : IsBase radix) (n : Nat) :
  digitsValue? radix 0 (Nat.toDigits radix n) = some n
  := by
  induction n using Nat.strongRecOn with
  | _ n ih =>
    by_cases hn : n < radix
    · simp [Nat.toDigits_of_lt_base hn, digitsValue?, digitValue?_digitChar hradix hn]
    · have hbase := hradix.one_lt
      have hlt : n / radix < n := Nat.div_lt_self (by omega) hbase
      have hmod : n % radix < radix := Nat.mod_lt _ (by omega)
      rw [Nat.toDigits_of_base_le hbase (by omega), digitsValue?_append, ih _ hlt]
      simp [digitsValue?, digitValue?_digitChar hradix hmod, Nat.div_add_mod]

theorem magnitude?_toDigits (hradix : IsBase radix) (n : Nat) :
  magnitude? radix (Nat.toDigits radix n) = some n
  := by
  rw [magnitude?, if_neg (by simp), digitsValue?_toDigits hradix]

theorem toDigits_inj {m : Nat} :
  Nat.toDigits 10 m = Nat.toDigits 10 n ↔ m = n
  := by
  refine ⟨fun h => ?_, congrArg _⟩
  have hm := magnitude?_toDigits (.inl rfl) m
  rw [h, magnitude?_toDigits (.inl rfl)] at hm
  exact (Option.some.inj hm).symm

private theorem digitChar_ne_plus (d : Nat) :
  Nat.digitChar d ≠ '+'
  := Nat.digitChar_ne '+' (by decide)

theorem head?_toDigits_ne_plus (hradix : IsBase radix) (n : Nat) :
  (Nat.toDigits radix n).head? ≠ some '+'
  := by
  induction n using Nat.strongRecOn with
  | _ n ih =>
    by_cases hn : n < radix
    · simp [Nat.toDigits_of_lt_base hn, digitChar_ne_plus]
    · have hbase := hradix.one_lt
      have hlt : n / radix < n := Nat.div_lt_self (by omega) hbase
      have hhead := ih _ hlt
      rw [Nat.toDigits_of_base_le hbase (by omega)]
      obtain ⟨c, digits, hdigits⟩ :=
        List.exists_cons_of_ne_nil (Nat.toDigits_ne_nil (n := n / radix) (b := radix))
      simpa [hdigits] using hhead

/-! ## Words -/

theorem nat?_of_head?_ne_plus (h : text.head? ≠ some '+') :
  nat? radix limit text = (magnitude? radix text).filter (· < limit)
  := by
  unfold nat?
  split
  · simp at h
  · rfl

/-- A number below a limit is read from its digits. -/
theorem nat?_toDigits (hradix : IsBase radix) (hn : n < limit) :
  nat? radix limit (Nat.toDigits radix n) = some n
  := by
  rw [nat?_of_head?_ne_plus (head?_toDigits_ne_plus hradix n), magnitude?_toDigits hradix]
  simp [hn]

theorem nat32?_toDigits (hn : n < twoPow 32) :
  nat32? (Nat.toDigits 10 n) = some n
  := nat?_toDigits (.inl rfl) hn

theorem nat64?_toDigits (hn : n < twoPow 64) :
  nat64? (Nat.toDigits 10 n) = some n
  := nat?_toDigits (.inl rfl) hn

/-- A text with a character that is no digit is no number. -/
theorem digitsValue?_eq_none {value : Nat} {c : Char} (hc : digitValue? radix c = none) (h : c ∈ text) :
  digitsValue? radix value text = none
  := by
  induction text generalizing value with
  | nil => simp at h
  | cons d text ih =>
    rw [digitsValue?]
    rcases List.mem_cons.mp h with rfl | htext
    · rw [hc]
      rfl
    · cases digitValue? radix d with
      | none => rfl
      | some n => apply ih htext

theorem nat32?_eq_none {c : Char} (hc : digitValue? 10 c = none) (hplus : c ≠ '+') (h : c ∈ text) :
  nat32? text = none
  := by
  by_cases hhead : text.head? = some '+'
  · obtain ⟨rest, rfl⟩ := List.head?_eq_some_iff.mp hhead
    have hrest : c ∈ rest := (List.mem_cons.mp h).resolve_left hplus
    simp [nat32?, nat?, magnitude?, digitsValue?_eq_none hc hrest]
  · rw [nat32?, nat?_of_head?_ne_plus hhead, magnitude?, digitsValue?_eq_none hc h]
    simp

/-- The written form of an integer. -/
theorem toList_toString_int (n : Int) :
  (toString n).toList
    = if n < 0 then '-' :: Nat.toDigits 10 n.natAbs else Nat.toDigits 10 n.natAbs
  := by
  cases n with
  | ofNat m => simp [toString, Int.repr]
  | negSucc m => simp [toString, Int.repr, Int.negSucc_lt_zero]

theorem int64?_toString {n : Int} (hn : isInt64 n = true) :
  int64? (toString n).toList = some n
  := by
  rw [toList_toString_int]
  by_cases hneg : n < 0
  · have habs : -(n.natAbs : Int) = n := by omega
    rw [if_pos hneg, int64?, magnitude?_toDigits (.inl rfl), Option.bind_some, habs, Word.checked?,
      if_pos hn]
  · have hlt : n.natAbs < twoPow 63 := by
      simp only [isInt64, Bool.and_eq_true, decide_eq_true_eq] at hn
      omega
    have habs : (n.natAbs : Int) = n := by omega
    have hread := nat?_toDigits (.inl rfl) hlt
    rw [if_neg hneg]
    revert hread
    have hminus : '-' ∉ Nat.toDigits 10 n.natAbs := not_mem_toDigits (by decide)
    revert hminus
    cases Nat.toDigits 10 n.natAbs with
    | nil => simp [nat?, magnitude?]
    | cons c digits =>
      intro hminus hread
      unfold int64?
      split
      · simp_all
      · simp [hread, habs]

/-! ## Quoted texts -/

namespace Quoted

/-! ### Characters by number -/

theorem not_mem_toDigits_sixteen {c : Char} (h : ∀ d, Nat.digitChar d ≠ c) (n : Nat) :
  c ∉ Nat.toDigits 16 n
  := by
  induction n using Nat.strongRecOn with
  | _ n ih =>
    by_cases hn : n < 16
    · simpa [Nat.toDigits_of_lt_base hn] using (h n).symm
    · have hlt : n / 16 < n := Nat.div_lt_self (by omega) (by decide)
      rw [Nat.toDigits_of_base_le (by decide) (by omega)]
      simpa [(h (n % 16)).symm] using ih _ hlt

theorem ofNumber?_toDigits (c : Char) :
  ofNumber? (Nat.toDigits 16 c.toNat) = some c
  := by
  have hlt : c.toNat < twoPow 32 := c.val.toNat_lt_size
  have hvalid : c.toNat.isValidChar := c.valid
  rw [ofNumber?, nat?_toDigits (.inr rfl) hlt]
  simp [hvalid]

/-- The digits of an escape are collected up to the brace. -/
theorem readFrom_digits
    {digits : List Char} (h : '\x7d' ∉ digits) (read out text : List Char) :
  readFrom (.digits read) out (digits ++ '\x7d' :: text)
    = readFrom (.digits (digits.reverse ++ read)) out ('\x7d' :: text)
  := by
  induction digits generalizing read with
  | nil => rfl
  | cons c digits ih =>
    obtain ⟨hc, hdigits⟩ := List.ne_and_not_mem_of_not_mem_cons h
    rw [List.cons_append, readFrom, if_neg (Ne.symm hc), ih hdigits]
    simp

/-! ### Quotations -/

/-- What stands for a character is read as the character. -/
theorem readFrom_writeChar (c : Char) (out text : List Char) :
  readFrom .text out (writeChar c ++ text) = readFrom .text (c :: out) text
  := by
  unfold writeChar
  split_ifs with htab hreturn hnewline hnull hbackslash hquote hprintable
  · simp [readFrom, unescape?, htab]
  · simp [readFrom, unescape?, hreturn]
  · simp [readFrom, unescape?, hnewline]
  · simp [readFrom, unescape?, hnull]
  · simp [readFrom, unescape?, hbackslash]
  · simp [readFrom, unescape?, hquote]
  · simp [readFrom, hquote, hbackslash]
  · have hdigits := readFrom_digits
      (not_mem_toDigits_sixteen (fun _ => Nat.digitChar_ne '\x7d' (by decide)) c.toNat) [] out text
    rw [List.append_assoc, List.append_assoc]
    simp only [List.cons_append, List.nil_append, readFrom, if_true]
    rw [if_neg (by decide), hdigits]
    simp [readFrom, ofNumber?_toDigits]

theorem readFrom_flatMap (s out rest : List Char) :
  readFrom .text out (s.flatMap writeChar ++ '"' :: rest) = .ok (out.reverse ++ s, rest)
  := by
  induction s generalizing out with
  | nil => simp [readFrom]
  | cons c s ih =>
    rw [List.flatMap_cons, List.append_assoc, readFrom_writeChar, ih]
    simp

theorem toList_write (s : String) :
  (write s).toList = '"' :: (s.toList.flatMap writeChar ++ ['"'])
  := by
  simp [write]

/-- A quotation denotes the string that it was written for. -/
theorem read_write (s : String) :
  read (write s).toList = .ok (s, [])
  := by
  simp [toList_write, read, readFrom_flatMap, trimStart, bind, Except.bind, pure, Except.pure]

theorem getLast?_write (s : String) :
  (write s).toList.getLast? = some '"'
  := by
  rw [toList_write, ← List.cons_append, List.getLast?_concat]

theorem newline_not_mem_writeChar (c : Char) :
  '\n' ∉ writeChar c
  := by
  unfold writeChar
  split_ifs with htab hreturn hnewline hnull hbackslash hquote hprintable
  all_goals try decide
  · simpa using Ne.symm hnewline
  · have hdigits := not_mem_toDigits_sixteen (fun _ => Nat.digitChar_ne '\n' (by decide)) c.toNat
    simpa using hdigits

/-- A quotation has no line break in it. -/
theorem newline_not_mem_write (s : String) :
  '\n' ∉ (write s).toList
  := by
  simp [toList_write, newline_not_mem_writeChar]

end Quoted

end FormCompiler.Text
