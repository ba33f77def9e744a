import FormCompiler.Proofs.Double.Shortest
import FormCompiler.Proofs.Text.Number
import Mathlib

/-!
# Doubles read back

The written form of a double that is a number or an infinity reads back as its bits
(`parse?_render`). The digits of its shortest decimal are laid out in one of five ways, and in each
way `parseMagnitude?` reads a decimal that is equal to the one that was written.
-/

namespace FormCompiler.Double

variable {d : Digits} {whole text : List Char} {bits : UInt64} {c : Char}

/-! ## Digits -/

theorem digitsValue_foldl (digits : List Char) (n : ℕ) :
  digits.foldl (fun n c => 10 * n + digitValue c) n = n * 10 ^ digits.length + digitsValue digits
  := by
  induction digits generalizing n with
  | nil => simp [digitsValue]
  | cons c digits ih =>
    have hcons : digitsValue (c :: digits) = digitValue c * 10 ^ digits.length + digitsValue digits :=
      (ih (10 * 0 + digitValue c)).trans (by simp)
    rw [List.foldl_cons, ih, hcons, List.length_cons]
    ring

theorem digitsValue_append (digits more : List Char) :
  digitsValue (digits ++ more) = digitsValue digits * 10 ^ more.length + digitsValue more
  := by
  rw [digitsValue, List.foldl_append, digitsValue_foldl]
  rfl

@[simp]
theorem digitsValue_replicate_zero (n : ℕ) :
  digitsValue (List.replicate n '0') = 0
  := by
  induction n with
  | zero => rfl
  | succ n ih =>
    rw [List.replicate_succ', digitsValue_append, ih]
    rfl

private theorem digitValue_digitChar :
  ∀ d : Fin 10, digitValue (Nat.digitChar d) = d.val
  := by decide

/-- The digits of a number denote it. -/
theorem digitsValue_toDigits (n : ℕ) :
  digitsValue (Nat.toDigits 10 n) = n
  := by
  induction n using Nat.strongRecOn with
  | _ n ih =>
    by_cases hn : n < 10
    · rw [Nat.toDigits_of_lt_base hn]
      simpa [digitsValue] using digitValue_digitChar ⟨n, hn⟩
    · have hlt : n / 10 < n := Nat.div_lt_self (by omega) (by decide)
      have hlast : digitsValue [Nat.digitChar (n % 10)] = n % 10 := by
        simpa [digitsValue] using digitValue_digitChar ⟨n % 10, Nat.mod_lt _ (by decide)⟩
      rw [Nat.toDigits_of_base_le (by decide) (by omega), digitsValue_append, ih _ hlt, hlast]
      simp only [List.length_singleton]
      omega

/-- Only zeros are dropped at the end. -/
theorem dropTrailingZeros_append (digits : List Char) :
  ∃ n, digits = dropTrailingZeros digits ++ List.replicate n '0'
  := by
  have hsplit := List.takeWhile_append_dropWhile (p := (· == '0')) (l := digits.reverse)
  have hzeros : digits.reverse.takeWhile (· == '0')
      = List.replicate (digits.reverse.takeWhile (· == '0')).length '0' := by
    apply List.eq_replicate_of_mem
    intro c hc
    simpa using List.mem_takeWhile_imp hc
  use (digits.reverse.takeWhile (· == '0')).length
  rw [dropTrailingZeros, ← List.reverse_replicate, ← hzeros, ← List.reverse_append, hsplit,
    List.reverse_reverse]

/-- The number that a decimal denotes. -/
def Digits.value (d : Digits) : ℚ :=
  digitsValue d.digits * 10 ^ (d.exponent - d.digits.length)

/-- Whether a decimal is written with digits only and is not zero. -/
structure Digits.IsPositive (d : Digits) : Prop where
  isDigit : ∀ c ∈ d.digits, c.isDigit = true
  pos : 0 < digitsValue d.digits

theorem Digits.IsPositive.ne_nil (h : d.IsPositive) :
  d.digits ≠ []
  := by
  intro hnil
  have hpos := h.pos
  rw [hnil] at hpos
  simp [digitsValue] at hpos

/-- The shortest decimal of a double is positive and near the double. -/
theorem shortest_isNear {m : ℕ} {q : ℤ} (hc : IsCanonical m q) :
  (shortest m q).IsPositive ∧ IsNear m q (shortest m q).value
  := by
  obtain ⟨n, k, hnear, heq⟩ := shortest_spec hc
  obtain ⟨t, ht⟩ := dropTrailingZeros_append (Nat.toDigits 10 n)
  have hn : n = digitsValue (dropTrailingZeros (Nat.toDigits 10 n)) * 10 ^ t := by
    conv_lhs => rw [← digitsValue_toDigits n, ht, digitsValue_append]
    simp
  have hlength : (Nat.toDigits 10 n).length
      = (dropTrailingZeros (Nat.toDigits 10 n)).length + t := by
    conv_lhs => rw [ht]
    simp
  have hpos : 0 < n := by
    by_contra hzero
    have hlow := hnear.1
    have hmpos : (1 : ℚ) ≤ m := by exact_mod_cast hc.pos
    have hreach : reach m ≤ 1 / 2 := by
      unfold reach
      split <;> norm_num
    have hqpos : (0 : ℚ) < 2 ^ q := by positivity
    rw [Nat.eq_zero_of_not_pos hzero] at hlow
    have hgap : (0 : ℚ) < (m - reach m) * 2 ^ q := mul_pos (by linarith) hqpos
    simp only [Nat.cast_zero, zero_mul] at hlow
    linarith
  rw [heq]
  set digits := dropTrailingZeros (Nat.toDigits 10 n) with hdigits
  refine ⟨⟨?_, ?_⟩, ?_⟩
  · intro c hc
    apply Nat.isDigit_of_mem_toDigits (b := 10) (n := n) (by decide) (by decide)
    rw [ht]
    exact List.mem_append_left _ hc
  · change 0 < digitsValue digits
    by_contra hzero
    rw [Nat.eq_zero_of_not_pos hzero] at hn
    omega
  · have hvalue : Digits.value ⟨digits, (Nat.toDigits 10 n).length + k⟩ = n * 10 ^ k := by
      have hcast : (n : ℚ) = digitsValue digits * 10 ^ t := by exact_mod_cast hn
      rw [Digits.value, hlength, hcast]
      simp only
      rw [show ((digits.length + t : ℕ) : ℤ) + k - digits.length = t + k by push_cast; ring,
        zpow_add₀ (by norm_num), zpow_natCast, mul_assoc]
    rwa [hvalue]

/-! ## Layouts -/

theorem takeWhile_isDigit_append
    {digits : List Char} (hdigits : ∀ c ∈ digits, c.isDigit = true) (rest : List Char)
    (hrest : ∀ c ∈ rest.head?, c.isDigit = false) :
  (digits ++ rest).takeWhile Char.isDigit = digits
    ∧ (digits ++ rest).dropWhile Char.isDigit = rest
  := by
  rw [List.takeWhile_append_of_pos hdigits, List.dropWhile_append_of_pos hdigits]
  cases rest with
  | nil => simp
  | cons c rest => simp [hrest c rfl]

/-- A decimal with a point is read. -/
theorem parseMagnitude?_point {fraction : List Char} (rest : List Char) {exponent : ℤ}
    (hwhole : ∀ c ∈ whole, c.isDigit = true) (hne : whole ≠ []) (hfraction : ∀ c ∈ fraction, c.isDigit = true)
    (hrest : ∀ c ∈ rest.head?, c.isDigit = false) (hexponent : parseExponent? rest = some exponent) :
  parseMagnitude? (whole ++ '.' :: (fraction ++ rest))
    = some (ofDecimal (digitsValue (whole ++ fraction)) (exponent - fraction.length))
  := by
  obtain ⟨htake, hdrop⟩ := takeWhile_isDigit_append hwhole ('.' :: (fraction ++ rest))
    (by simp)
  obtain ⟨htake', hdrop'⟩ := takeWhile_isDigit_append hfraction rest hrest
  simp [parseMagnitude?, htake, hdrop, htake', hdrop', hexponent, hne]

/-- A decimal without a point is read. -/
theorem parseMagnitude?_whole {rest : List Char} {exponent : ℤ} (hwhole : ∀ c ∈ whole, c.isDigit = true)
    (hne : whole ≠ []) (hexponent : parseExponent? ('e' :: rest) = some exponent) :
  parseMagnitude? (whole ++ 'e' :: rest) = some (ofDecimal (digitsValue whole) exponent)
  := by
  obtain ⟨htake, hdrop⟩ := takeWhile_isDigit_append hwhole ('e' :: rest) (by simp)
  simp [parseMagnitude?, htake, hdrop, hexponent, hne]

theorem parseExponent?_toString (n : ℤ) :
  parseExponent? ('e' :: (toString n).toList) = some n
  := by
  have hdigits : (Nat.toDigits 10 n.natAbs).all Char.isDigit = true := by
    rw [List.all_eq_true]
    intro c hc
    apply Nat.isDigit_of_mem_toDigits (by decide) (by decide) hc
  have hvalue := digitsValue_toDigits n.natAbs
  have hminus : '-' ∉ Nat.toDigits 10 n.natAbs := Text.not_mem_toDigits (by decide)
  have hplus : '+' ∉ Nat.toDigits 10 n.natAbs := Text.not_mem_toDigits (by decide)
  obtain ⟨c, digits, hcons⟩ :=
    List.exists_cons_of_ne_nil (Nat.toDigits_ne_nil (n := n.natAbs) (b := 10))
  rw [Text.toList_toString_int]
  rw [hcons] at hdigits hvalue hminus hplus ⊢
  split
  · have habs : -(n.natAbs : ℤ) = n := by omega
    simp [parseExponent?, hdigits, hvalue, -Nat.cast_natAbs, habs]
  · have habs : (n.natAbs : ℤ) = n := by omega
    obtain ⟨hc, -⟩ := List.ne_and_not_mem_of_not_mem_cons hminus
    obtain ⟨hc', -⟩ := List.ne_and_not_mem_of_not_mem_cons hplus
    simp [parseExponent?, hc.symm, hc'.symm, hdigits, hvalue, -Nat.cast_natAbs, habs]

/-- What reading the text of a decimal gives: a decimal equal to it. -/
def Digits.ReadsAs (d : Digits) (text : List Char) : Prop :=
  ∃ (s : ℕ) (e : ℤ), 0 < s ∧ (s : ℚ) * 10 ^ e = d.value ∧
    parseMagnitude? text = some (ofDecimal s e)

/-- A text with the digits of a decimal on both sides of a point, and perhaps with further zeros. -/
theorem Digits.readsAs_point (fraction : List Char) (zeros : ℕ) (h : d.IsPositive) (hne : whole ≠ [])
    (hdigits : ∀ c ∈ whole ++ fraction, c.isDigit = true)
    (hvalue : digitsValue (whole ++ fraction) = digitsValue d.digits * 10 ^ zeros)
    (hexponent : zeros - fraction.length = d.exponent - d.digits.length) :
  d.ReadsAs (whole ++ '.' :: fraction)
  := by
  have hread := parseMagnitude?_point []
    (fun c hc => hdigits c (List.mem_append_left fraction hc)) hne
    (fun c hc => hdigits c (List.mem_append_right whole hc)) (by simp) rfl
  rw [List.append_nil, hvalue] at hread
  refine ⟨_, _, ?_, ?_, hread⟩
  · have hpos := h.pos
    positivity
  · rw [Digits.value, ← hexponent, zero_sub, sub_eq_add_neg, zpow_add₀ (by norm_num), zpow_natCast]
    push_cast
    ring

theorem Digits.readsAs_positional (h : d.IsPositive) :
  d.ReadsAs d.positional
  := by
  have hmem : ∀ (n : ℕ) (c : Char), c ∈ d.digits ∨ c ∈ List.replicate n '0' → c.isDigit = true := by
    intro n c hc
    rcases hc with hc | hc
    · exact h.isDigit c hc
    · rw [List.eq_of_mem_replicate hc]
      decide
  have hlength : 0 < d.digits.length := List.length_pos_iff.mpr h.ne_nil
  unfold Digits.positional
  split
  · -- zeros stand between the point and the digits
    apply Digits.readsAs_point (List.replicate (-d.exponent).toNat '0' ++ d.digits) 0 h
      (List.cons_ne_nil '0' [])
    · intro c hc
      apply hmem ((-d.exponent).toNat + 1) c
      rw [List.replicate_succ]
      simp only [List.mem_append, List.mem_cons, List.not_mem_nil, or_false] at hc ⊢
      tauto
    · rw [← List.append_assoc, List.singleton_append, ← List.replicate_succ, digitsValue_append]
      simp
    · simp only [List.length_append, List.length_replicate]
      push_cast
      omega
  · simp only
    split
    · -- zeros stand between the digits and the point
      apply Digits.readsAs_point _ (d.exponent.toNat - d.digits.length + 1) h
      · simp [h.ne_nil]
      · intro c hc
        apply hmem (d.exponent.toNat - d.digits.length + 1) c
        rw [List.replicate_succ']
        simp only [List.mem_append, List.mem_cons, List.not_mem_nil, or_false] at hc ⊢
        tauto
      · rw [List.append_assoc, ← List.replicate_succ', digitsValue_append]
        simp
      · simp only [List.length_singleton]
        push_cast
        omega
    · -- the point stands inside the digits
      apply Digits.readsAs_point _ 0 h
      · intro hnil
        have hcount := congrArg List.length hnil
        simp only [List.length_take, List.length_nil] at hcount
        omega
      · rw [List.take_append_drop]
        exact h.isDigit
      · simp [List.take_append_drop]
      · rw [List.length_drop]
        omega

theorem Digits.readsAs_scientific (h : d.IsPositive) :
  d.ReadsAs d.scientific
  := by
  have hexponent := parseExponent?_toString (d.exponent - 1)
  unfold Digits.scientific
  simp only
  split
  · next first second rest heq =>
    have hdigits := h.isDigit
    rw [heq] at hdigits
    have hfirst : ∀ c ∈ [first], c.isDigit = true := by simpa using hdigits first (by simp)
    have hread := parseMagnitude?_point ('e' :: (toString (d.exponent - 1)).toList) hfirst (by simp)
      (fun c hc => hdigits c (List.mem_cons_of_mem _ hc)) (by simp) hexponent
    refine ⟨_, _, ?_, ?_, hread⟩
    · simpa [← heq] using h.pos
    · rw [Digits.value, heq]
      simp only [List.singleton_append, List.length_cons]
      congr 2
      push_cast
      omega
  · next hnot =>
    obtain ⟨first, rest, heq⟩ := List.exists_cons_of_ne_nil h.ne_nil
    obtain rfl : rest = [] := by
      cases rest with
      | nil => rfl
      | cons second rest => exact absurd heq (hnot first second rest)
    refine ⟨_, _, h.pos, ?_, parseMagnitude?_whole h.isDigit h.ne_nil hexponent⟩
    rw [Digits.value]
    congr 2
    simp [heq]

theorem Digits.readsAs_text (h : d.IsPositive) :
  d.ReadsAs d.text
  := by
  unfold Digits.text
  split
  · apply Digits.readsAs_positional h
  · apply Digits.readsAs_scientific h

/-- The text of the shortest decimal of a double reads as the double. -/
theorem parseMagnitude?_shortest {m : ℕ} {q : ℤ} (hc : IsCanonical m q) :
  parseMagnitude? (shortest m q).text = some (encode m q)
  := by
  obtain ⟨hpositive, hnear⟩ := shortest_isNear hc
  obtain ⟨s, e, hs, hvalue, hread⟩ := Digits.readsAs_text hpositive
  rw [← hvalue] at hnear
  rw [hread, ofDecimal_eq hc hs hnear]

/-! ## All doubles -/

private theorem hiddenBit_eq :
  hiddenBit = 4503599627370496
  := by decide

private theorem infinityBits_eq :
  infinityBits = 9218868437227405312
  := by decide

private theorem signBit_eq :
  signBit = 9223372036854775808
  := by decide

theorem eq_withSign {magnitude : ℕ} (h : bits.toNat % signBit = magnitude) :
  bits = withSign (signBit ≤ bits.toNat) magnitude
  := by
  have hbits : bits.toNat < 2 ^ 64 := bits.toNat_lt
  apply UInt64.toNat.inj
  rw [signBit_eq] at h
  simp only [withSign, signBit_eq, UInt64.toNat_ofNat', decide_eq_true_eq]
  split <;> omega

/-- The bits of a finite double encode its view, which is canonical unless it is zero. -/
theorem view_eq_finite {negative : Bool} {m : ℕ} {q : ℤ} (h : view bits = .finite negative m q) :
  bits = withSign negative (encode m q) ∧ (m ≠ 0 → IsCanonical m q)
  := by
  unfold view at h
  simp only at h
  split at h
  · split at h <;> simp at h
  · split at h
    · next hexponent =>
      obtain ⟨rfl, rfl, rfl⟩ := View.finite.inj h
      have hstored : bits.toNat % hiddenBit < hiddenBit := Nat.mod_lt _ (by decide)
      constructor
      · rw [encode, if_pos hstored]
        apply eq_withSign
        rw [hiddenBit_eq] at *
        rw [signBit_eq]
        omega
      · intro hne
        exact ⟨by omega, by omega, le_rfl, by decide, .inr rfl⟩
    · next hfinite hexponent =>
      obtain ⟨rfl, rfl, rfl⟩ := View.finite.inj h
      have hstored : bits.toNat % hiddenBit < hiddenBit := Nat.mod_lt _ (by decide)
      constructor
      · rw [encode, if_neg (by omega)]
        apply eq_withSign
        rw [infinityBits_eq, signBit_eq]
        rw [hiddenBit_eq] at *
        omega
      · intro hne
        refine ⟨by omega, by omega, ?_, by omega, .inl (by omega)⟩
        rw [minExponent]
        omega

theorem view_eq_infinite {negative : Bool} (h : view bits = .infinite negative) :
  bits = withSign negative infinityBits
  := by
  unfold view at h
  simp only at h
  split at h
  · split at h
    · obtain rfl := View.infinite.inj h
      apply eq_withSign
      rw [infinityBits_eq, signBit_eq]
      rw [hiddenBit_eq] at *
      omega
    · simp at h
  · split at h <;> simp at h

/-- A text that starts with a digit is no word. -/
theorem parseWord?_eq_none (h : c.isDigit = true) :
  parseWord? (c :: text) = none
  := by
  have hlower : c.toLower = c := by
    simp only [Char.isDigit, Bool.and_eq_true, decide_eq_true_eq, ge_iff_le, UInt32.le_iff_toNat_le]
      at h
    rw [Char.toLower, dif_neg]
    rw [ge_iff_le, UInt32.le_iff_toNat_le, UInt32.le_iff_toNat_le]
    intro hupper
    have h9 : '9'.val.toNat < 'A'.val.toNat := by decide
    omega
  have hhead : ∀ (word : String) (d : Char), word.toList.head? = some d → d.isDigit = false →
      String.ofList ((c :: text).map Char.toLower) ≠ word := by
    rintro word d hd hdigit rfl
    simp only [List.map_cons, hlower, String.toList_ofList, List.head?_cons, Option.some.injEq] at hd
    rw [hd, hdigit] at h
    contradiction
  unfold parseWord?
  split
  · next heq => exact absurd heq (hhead "inf" 'i' rfl (by decide))
  · next heq => exact absurd heq (hhead "infinity" 'i' rfl (by decide))
  · next heq => exact absurd heq (hhead "nan" 'n' rfl (by decide))
  · rfl

/-- The sign of a written number is read, and then the rest of it. -/
theorem parse?_signed (magnitude : ℕ) (negative : Bool) (hminus : c ≠ '-') (hplus : c ≠ '+')
    (h : ((parseWord? (c :: text)).orElse fun _ => parseMagnitude? (c :: text)) = some magnitude) :
  parse? (if negative then '-' :: c :: text else c :: text) = some (withSign negative magnitude)
  := by
  cases negative with
  | true =>
    simp only [parse?, if_true]
    rw [h]
    rfl
  | false =>
    simp only [parse?, Bool.false_eq_true, if_false]
    split
    · next heq => exact absurd (List.cons.inj heq).1 hminus
    · next heq => exact absurd (List.cons.inj heq).1 hplus
    · simp only
      rw [h]
      rfl

theorem Digits.head?_text (h : d.IsPositive) :
  ∃ c text, d.text = c :: text ∧ c.isDigit = true
  := by
  obtain ⟨first, rest, heq⟩ := List.exists_cons_of_ne_nil h.ne_nil
  have hfirst : first.isDigit = true := h.isDigit first (by simp [heq])
  unfold Digits.text
  split
  · unfold Digits.positional
    split
    · exact ⟨'0', _, rfl, by decide⟩
    · simp only [heq]
      split
      · exact ⟨first, _, rfl, hfirst⟩
      · obtain ⟨n, hn⟩ : ∃ n, d.exponent.toNat = n + 1 := ⟨d.exponent.toNat - 1, by omega⟩
        rw [hn]
        exact ⟨first, _, rfl, hfirst⟩
  · unfold Digits.scientific
    simp only [heq]
    cases rest with
    | nil | cons second rest => exact ⟨first, _, rfl, hfirst⟩

/-- The text of a positive decimal is read with either sign. -/
theorem parse?_of_parseMagnitude? {magnitude : ℕ} (negative : Bool) (hdigit : c.isDigit = true)
    (h : parseMagnitude? (c :: text) = some magnitude) :
  parse? (if negative then '-' :: c :: text else c :: text) = some (withSign negative magnitude)
  := by
  apply parse?_signed
  · rintro rfl
    simp at hdigit
  · rintro rfl
    simp at hdigit
  · rw [parseWord?_eq_none hdigit, h]
    rfl

/-- What is written for a double other than a not-a-number reads back as its bits. -/
theorem parse?_render (h : view bits ≠ .notANumber) :
  parse? (render bits).toList = some bits
  := by
  unfold render
  simp only
  split
  · contradiction
  · next negative hview =>
    rw [String.toList_ofList, parse?_signed infinityBits negative (by decide) (by decide)]
    · rw [view_eq_infinite hview]
    · decide
  · next negative m q hview =>
    obtain ⟨hbits, hcanonical⟩ := view_eq_finite hview
    rw [String.toList_ofList]
    by_cases hm : m = 0
    · have hzero := parse?_of_parseMagnitude? negative (by decide : '0'.isDigit = true)
        (by decide : parseMagnitude? ['0', '.', '0'] = some 0)
      rw [hbits, hm, if_pos rfl, hzero]
      rfl
    · rw [if_neg hm]
      obtain ⟨c, text, htext, hdigit⟩ := Digits.head?_text (shortest_isNear (hcanonical hm)).1
      have hread := parseMagnitude?_shortest (hcanonical hm)
      rw [htext] at hread ⊢
      rw [parse?_of_parseMagnitude? negative hdigit hread, ← hbits]

/-! ## Characters -/

theorem isDigit_of_mem_shortest {m : ℕ} {q : ℤ} (h : c ∈ (shortest m q).digits) :
  c.isDigit = true
  := by
  simp only [shortest] at h
  set n := ((Interval.ofBinary m q).search _ 16 1).1
  obtain ⟨t, ht⟩ := dropTrailingZeros_append (Nat.toDigits 10 n)
  apply Nat.isDigit_of_mem_toDigits (b := 10) (n := n) (by decide) (by decide)
  rw [ht]
  exact List.mem_append_left _ h

private theorem not_mem_of_isDigit (hc : c.isDigit = false) (h : ∀ d ∈ text, d.isDigit = true) :
  c ∉ text
  := by
  intro hmem
  rw [h c hmem] at hc
  contradiction

/-- The written form of a decimal has digits, points, signs and exponent letters only. -/
theorem Digits.not_mem_text (hdigits : ∀ c ∈ d.digits, c.isDigit = true) (hc : c.isDigit = false)
    (hother : c ∉ ['.', 'e', '-']) :
  c ∉ d.text
  := by
  have hnot : c ∉ d.digits := not_mem_of_isDigit hc hdigits
  have hzeros : ∀ n, c ∉ List.replicate n '0' := by
    intro n hmem
    rw [List.eq_of_mem_replicate hmem] at hc
    contradiction
  have hzero : c ≠ '0' := by
    rintro rfl
    contradiction
  simp only [List.mem_cons, List.not_mem_nil, or_false, not_or] at hother
  obtain ⟨hpoint, he, hminus⟩ := hother
  unfold Digits.text
  split
  · unfold Digits.positional
    split
    · simp [hzero, hpoint, hnot]
    · simp only
      split
      · simp [hzero, hpoint, hnot]
      · simp only [List.mem_append, List.mem_cons, not_or]
        exact ⟨fun hmem => hnot (List.mem_of_mem_take hmem), hpoint,
          fun hmem => hnot (List.mem_of_mem_drop hmem)⟩
  · have hexponent : c ∉ (toString (d.exponent - 1)).toList := by
      rw [Text.toList_toString_int]
      split
      · simp [hminus, Text.not_mem_toDigits hc]
      · exact Text.not_mem_toDigits hc
    unfold Digits.scientific
    simp only [List.mem_append, List.mem_cons, not_or]
    refine ⟨?_, he, hexponent⟩
    split
    · next first second rest heq =>
      rw [heq] at hnot
      simp only [List.mem_cons, not_or] at hnot ⊢
      exact ⟨hnot.1, hpoint, hnot.2.1, hnot.2.2⟩
    · exact hnot

/-- The written form of a double has digits and a few other characters only. -/
theorem not_mem_render (hc : c.isDigit = false) (hother : c ∉ ['.', 'e', '-', 'i', 'n', 'f', 'N', 'a']) :
  c ∉ (render bits).toList
  := by
  simp only [List.mem_cons, List.not_mem_nil, or_false, not_or] at hother
  obtain ⟨hpoint, he, hminus, hi, hn, hf, hN, ha⟩ := hother
  unfold render
  simp only
  split
  · simp [hN, ha]
  · rw [String.toList_ofList]
    split <;> simp [hi, hn, hf, hminus]
  · next negative m q hview =>
    have hzero : c ≠ '0' := by
      rintro rfl
      contradiction
    have htext : c ∉ (if m = 0 then ['0', '.', '0'] else (shortest m q).text) := by
      split
      · simp [hzero, hpoint]
      · apply Digits.not_mem_text (fun _ => isDigit_of_mem_shortest) hc
        simp [hpoint, he, hminus]
    rw [String.toList_ofList]
    split
    · rw [List.mem_cons, not_or]
      exact ⟨hminus, htext⟩
    · exact htext

end FormCompiler.Double
