import FormCompiler.Proofs.Text.Number
import FormCompiler.Proofs.Text.Split
import FormCompiler.Ty.Substitution

/-!
# The names of instances

The part of a name that stands for a type is made of words with underscores between them, the type's
constructors from the outside in. A length ends the element type of its array, but nothing ends the
elements of a tuple or the parameters of a function type. So a tuple in a tuple can be read in two
ways, and two substitutions can give an instance the same name. `Ty.isFlat` excludes these types; all
others are determined by their words (`Ty.mangle_inj`).
-/

namespace FormCompiler

open FormCompiler.Text

/-! ## Words -/

/-- The words of a list; without any there is one word of no letters. -/
def orBlank : List (List Char) → List (List Char)
  | [] => [[]]
  | words => words

mutual

/-- The words that stand for a type. -/
def Ty.words : Ty → List (List Char)
  | .int => ["int".toList]
  | .frac => ["frac".toList]
  | .bool => ["bool".toList]
  | .str => ["str".toList]
  | .ptr => ["ptr".toList]
  | .none => ["none".toList]
  | .sizedInt bits => ["int".toList ++ Nat.toDigits 10 bits]
  | .sizedFrac bits => ["frac".toList ++ Nat.toDigits 10 bits]
  | .array element length => "array".toList :: (element.words ++ [length.text.toList])
  | .tuple elements => "tuple".toList :: orBlank (typesWords elements)
  | .function params result => "fn".toList :: (orBlank (typesWords params) ++ result.words)
  | .var name => [name.toList]

/-- The words that stand for several types. -/
def typesWords : List Ty → List (List Char)
  | [] => []
  | type :: types => type.words ++ typesWords types

end

/-- A text of words, each with an underscore after it. -/
def wordsText (words : List (List Char)) : List Char := words.flatMap (· ++ ['_'])

@[simp]
theorem wordsText_append (words words' : List (List Char)) :
  wordsText (words ++ words') = wordsText words ++ wordsText words'
  := List.flatMap_append

@[simp]
theorem wordsText_cons (word : List Char) (words : List (List Char)) :
  wordsText (word :: words) = word ++ '_' :: wordsText words
  := by simp [wordsText]

@[simp]
theorem wordsText_nil :
  wordsText [] = []
  := rfl

@[simp]
theorem orBlank_cons (word : List Char) (words : List (List Char)) :
  orBlank (word :: words) = word :: words
  := rfl

section

attribute [local simp] Ty.mangle mangledTypes Ty.words typesWords

theorem Ty.words_ne_nil (type : Ty) :
  type.words ≠ []
  := by
  cases type <;> simp

theorem orBlank_typesWords_cons (type : Ty) (types : List Ty) :
  orBlank (typesWords (type :: types)) = typesWords (type :: types)
  := by
  obtain ⟨word, words, h⟩ := List.exists_cons_of_ne_nil type.words_ne_nil
  simp [h]

theorem toString_toList (text : String) :
  (toString text).toList = text.toList
  := rfl

mutual

theorem Ty.mangle_eq : ∀ type : Ty, type.mangle.toList ++ ['_'] = wordsText type.words
  | .array element length => by
    simp [← Ty.mangle_eq element]
  | .tuple elements => by
    simp [← intercalate_mangledTypes elements]
  | .function params result => by
    simp [← intercalate_mangledTypes params, ← Ty.mangle_eq result]
  | .int | .frac | .bool | .str | .ptr | .none | .var _ => by simp
  | .sizedInt _ | .sizedFrac _ => by simp [toString_toList]

theorem intercalate_mangledTypes : ∀ types : List Ty,
    ("_".intercalate (mangledTypes types)).toList ++ ['_'] = wordsText (orBlank (typesWords types))
  | [] => by simp [orBlank]
  | type :: types => by
    rw [orBlank_typesWords_cons, ← flatMap_mangledTypes (type :: types), mangledTypes, List.flatMap_cons]
    simp [intercalate_append_sep, List.flatMap_map]

theorem flatMap_mangledTypes : ∀ types : List Ty,
    (mangledTypes types).flatMap (fun name => name.toList ++ ['_']) = wordsText (typesWords types)
  | [] => by simp
  | type :: types => by simp [← Ty.mangle_eq type, ← flatMap_mangledTypes types]

end

end

/-! ## Reading words -/

/-- Whether a type's words have no end of their own. -/
def Ty.isCompound : Ty → Bool
  | .tuple _ | .function _ _ => true
  | _ => false

mutual

/-- Whether the parts of tuples and function types, to any depth, have an end of their own. -/
def Ty.isFlat : Ty → Bool
  | .array element _ => element.isFlat
  | .tuple elements => flatParts elements
  | .function params result => flatParts params && (result.isFlat && !result.isCompound)
  | _ => true

/-- Whether types are flat and have an end of their own. -/
def flatParts : List Ty → Bool
  | [] => true
  | type :: types => type.isFlat && !type.isCompound && flatParts types

end

/-- No type starts here: there are no words, or the first is a length. -/
def Stops (words : List (List Char)) : Prop :=
  ∀ word ∈ words.head?, ∀ c ∈ word.head?, c.isDigit = true

section

variable {r r' : List (List Char)}

attribute [local simp] Ty.words typesWords Ty.isFlat flatParts Ty.isGeneric anyGeneric

theorem not_stops_words {type : Ty} (h : type.isGeneric = false) (rest : List (List Char)) :
  ¬ Stops (type.words ++ rest)
  := by
  cases type <;> simp [Stops] at h ⊢

theorem stops_length (n : Nat) (rest : List (List Char)) :
  Stops (Nat.toDigits 10 n :: rest)
  := by
  simp only [Stops, List.head?_cons, Option.mem_def, Option.some.injEq]
  rintro _ rfl c hc
  exact Nat.isDigit_of_mem_toDigits (by decide) (by decide) (List.mem_of_mem_head? hc)

theorem orBlank_inj {s t : List Ty} (hs : anyGeneric s = false) (ht : anyGeneric t = false)
    (h : orBlank (typesWords s) ++ r = orBlank (typesWords t) ++ r') :
  (s = [] ∧ t = [] ∧ r = r') ∨ (s ≠ [] ∧ t ≠ [] ∧ typesWords s ++ r = typesWords t ++ r')
  := by
  have hblank : ∀ {type : Ty} {types : List Ty} {q q' : List (List Char)},
      type.isGeneric = false → [] :: q ≠ typesWords (type :: types) ++ q' := by
    intro type types q q' htype heq
    refine not_stops_words htype (typesWords types ++ q') ?_
    simp only [typesWords, List.append_assoc] at heq
    rw [← heq]
    simp [Stops]
  cases s with
  | nil =>
    cases t with
    | nil => exact .inl ⟨rfl, rfl, by simpa [orBlank] using h⟩
    | cons type types =>
      rw [orBlank_typesWords_cons] at h
      exact absurd h (hblank (by simp_all))
  | cons type types =>
    rw [orBlank_typesWords_cons] at h
    cases t with
    | nil => exact absurd h.symm (hblank (by simp_all))
    | cons type' types' =>
      rw [orBlank_typesWords_cons] at h
      exact .inr ⟨by simp, by simp, h⟩

/--
A type is determined by its words, whatever follows them if the type has an end of its own, and
otherwise if no further type follows.
-/
def Ty.IsDetermined (s : Ty) : Prop :=
  s.isFlat = true → s.isGeneric = false → ∀ (t : Ty) (r r' : List (List Char)), t.isFlat = true →
    t.isGeneric = false → (s.isCompound = true → t.isCompound = true → Stops r ∧ Stops r') →
    s.words ++ r = t.words ++ r' → s = t ∧ r = r'

/-- Types with ends of their own are determined by their words if no further type follows. -/
theorem typesWords_append_inj {s t : List Ty} (hdetermined : ∀ type ∈ s, type.IsDetermined) (hs : flatParts s = true)
    (ht : flatParts t = true) (hs' : anyGeneric s = false) (ht' : anyGeneric t = false) (hr : Stops r)
    (hr' : Stops r') (h : typesWords s ++ r = typesWords t ++ r') :
  s = t ∧ r = r'
  := by
  induction s generalizing t with
  | nil =>
    cases t with
    | nil => exact ⟨rfl, by simpa using h⟩
    | cons type types =>
      simp at h ht'
      exact absurd hr (h ▸ not_stops_words ht'.1 _)
  | cons type types ih =>
    cases t with
    | nil =>
      simp at h hs'
      exact absurd hr' (h ▸ not_stops_words hs'.1 _)
    | cons type' types' =>
      simp at hs ht hs' ht' h hdetermined
      obtain ⟨rfl, hrest⟩ := hdetermined.1 hs.1.1 hs'.1 type' _ _ ht.1.1 ht'.1 (by simp [hs.1.2]) h
      obtain ⟨rfl, hrest'⟩ := ih hdetermined.2 hs.2 ht.2 hs'.2 ht'.2 hrest
      exact ⟨rfl, hrest'⟩

/-- The words of a function type are those of its parameters and its result, one after the other. -/
theorem flatParts_append (params : List Ty) (result : Ty) :
  typesWords (params ++ [result]) = typesWords params ++ result.words
    ∧ flatParts (params ++ [result]) = (flatParts params && (result.isFlat && !result.isCompound))
    ∧ anyGeneric (params ++ [result]) = (anyGeneric params || result.isGeneric)
  := by
  induction params with
  | nil => simp
  | cons type types ih => simp [ih, Bool.and_assoc, Bool.or_assoc]

mutual

theorem Ty.isDetermined : ∀ s : Ty, s.IsDetermined
  | .array element length => by
    rintro hs hs' t r r' ht ht' - h
    cases t <;> simp at h ht'
    case array element' length' =>
    cases length <;> cases length' <;> simp [ArrayLength.isGeneric] at hs' ht'
    case fixed.fixed n n' =>
    -- the length ends the element type, whatever that is
    obtain ⟨rfl, hrest⟩ := Ty.isDetermined element hs hs' element' _ _ ht ht'
      (fun _ _ => ⟨stops_length n r, stops_length n' r'⟩) (by simpa [ArrayLength.text] using h)
    simpa [toDigits_inj] using hrest
  | .tuple elements => by
    intro hs hs' t r r' ht ht' hends h
    cases t <;> simp at h ht'
    case tuple elements' =>
    obtain ⟨hr, hr'⟩ := hends rfl rfl
    rcases orBlank_inj hs' ht' h with ⟨rfl, rfl, hrest⟩ | ⟨-, -, hrest⟩
    · exact ⟨rfl, hrest⟩
    · obtain ⟨rfl, hrest'⟩ := typesWords_append_inj (isDetermined_of_mem elements) hs ht hs' ht'
        hr hr' hrest
      exact ⟨rfl, hrest'⟩
  | .function params result => by
    intro hs hs' t r r' ht ht' hends h
    cases t <;> simp at h ht'
    case function params' result' =>
    obtain ⟨hr, hr'⟩ := hends rfl rfl
    simp at hs ht hs'
    rcases orBlank_inj hs'.1 ht'.1 h with ⟨rfl, rfl, hrest⟩ | ⟨-, -, hrest⟩
    · obtain ⟨rfl, hrest'⟩ := Ty.isDetermined result hs.2.1 hs'.2 result' _ _ ht.2.1 ht'.2
        (by simp [hs.2.2]) hrest
      exact ⟨rfl, hrest'⟩
    · obtain ⟨hwords, hflat, hgeneric⟩ := flatParts_append params result
      obtain ⟨hwords', hflat', hgeneric'⟩ := flatParts_append params' result'
      have hall : ∀ type ∈ params ++ [result], type.IsDetermined := by
        simp only [List.forall_mem_append, List.forall_mem_singleton]
        exact ⟨isDetermined_of_mem params, Ty.isDetermined result⟩
      obtain ⟨htypes, hrest'⟩ := typesWords_append_inj (t := params' ++ [result']) hall
        (by simp [hflat, hs]) (by simp [hflat', ht]) (by simp [hgeneric, hs']) (by simp [hgeneric', ht'])
        hr hr' (by simpa [hwords, hwords'] using hrest)
      obtain ⟨rfl, hresult⟩ := List.append_inj' htypes rfl
      exact ⟨by simpa using hresult, hrest'⟩
  | .int | .frac | .bool | .str | .ptr | .none => by
    intro _ _ t r r' _ ht' _ h
    cases t <;> simp at h ht' ⊢
    exact h
  | .sizedInt _ | .sizedFrac _ => by
    intro _ _ t r r' _ ht' _ h
    cases t <;> simp [toDigits_inj] at h ht' ⊢
    exact h
  | .var _ => by
    intro _ hs'
    simp at hs'

theorem isDetermined_of_mem : ∀ (types : List Ty), ∀ type ∈ types, type.IsDetermined
  | [] => by simp
  | type :: types => by
    simp only [List.forall_mem_cons]
    exact ⟨Ty.isDetermined type, isDetermined_of_mem types⟩

end

theorem forall_mem_orBlank {words : List (List Char)} {p : Char → Prop}
    (h : ∀ word ∈ words, ∀ c ∈ word, p c) :
  ∀ word ∈ orBlank words, ∀ c ∈ word, p c
  := by
  cases words with
  | nil => simp [orBlank]
  | cons word words => exact h

theorem isAlphanum_of_mem_toDigits {c : Char} {n : Nat} (h : c ∈ Nat.toDigits 10 n) :
  c.isAlphanum = true
  := by
  rw [Char.isAlphanum, Nat.isDigit_of_mem_toDigits (by decide) (by decide) h, Bool.or_true]

mutual

/-- Types without variables are written with letters and digits. -/
theorem Ty.isAlphanum_of_mem_words : ∀ (type : Ty), type.isGeneric = false →
    ∀ word ∈ type.words, ∀ c ∈ word, c.isAlphanum = true
  | .array element (.fixed n), h => by
    simp only [Ty.isGeneric, ArrayLength.isGeneric, Bool.false_or] at h
    simp only [Ty.words, List.forall_mem_cons, List.forall_mem_append]
    refine ⟨List.all_eq_true.mp rfl, Ty.isAlphanum_of_mem_words element h, ?_, by simp⟩
    intro c hc
    exact isAlphanum_of_mem_toDigits (by simpa [ArrayLength.text] using hc)
  | .array _ (.var _), h => by simp [ArrayLength.isGeneric] at h
  | .tuple elements, h => by
    simp only [Ty.words, List.forall_mem_cons]
    exact ⟨List.all_eq_true.mp rfl, forall_mem_orBlank (isAlphanum_of_mem_typesWords elements h)⟩
  | .function params result, h => by
    simp only [Ty.isGeneric, Bool.or_eq_false_iff] at h
    simp only [Ty.words, List.forall_mem_cons, List.forall_mem_append]
    exact ⟨List.all_eq_true.mp rfl, forall_mem_orBlank (isAlphanum_of_mem_typesWords params h.1),
      Ty.isAlphanum_of_mem_words result h.2⟩
  | .int, _ | .frac, _ | .bool, _ | .str, _ | .ptr, _ | .none, _ => by
    simp only [Ty.words, List.forall_mem_singleton]
    exact List.all_eq_true.mp rfl
  | .sizedInt bits, _ | .sizedFrac bits, _ => by
    simp only [Ty.words, List.forall_mem_singleton, List.forall_mem_append]
    exact ⟨List.all_eq_true.mp rfl, fun c => isAlphanum_of_mem_toDigits⟩
  | .var _, h => by simp at h

theorem isAlphanum_of_mem_typesWords : ∀ (types : List Ty), anyGeneric types = false →
    ∀ word ∈ typesWords types, ∀ c ∈ word, c.isAlphanum = true
  | [], _ => by simp
  | type :: types, h => by
    simp only [anyGeneric, Bool.or_eq_false_iff] at h
    simp only [typesWords, List.forall_mem_append]
    exact ⟨Ty.isAlphanum_of_mem_words type h.1, isAlphanum_of_mem_typesWords types h.2⟩

end

end

/-! ## Types and bindings -/

/-- The words of a text of words are these words. -/
theorem wordsText_inj {words words' : List (List Char)} (h : ∀ word ∈ words, '_' ∉ word)
    (h' : ∀ word ∈ words', '_' ∉ word) (heq : wordsText words = wordsText words') :
  words = words'
  := by
  have hsplit := congrArg (splitOn '_') heq
  rw [wordsText, wordsText, splitOn_flatMap h, splitOn_flatMap h'] at hsplit
  exact List.append_cancel_right hsplit

theorem Ty.not_mem_of_mem_words {type : Ty} (h : type.isGeneric = false) :
  ∀ word ∈ type.words, '_' ∉ word
  := by
  intro word hword hmem
  have halphanum := type.isAlphanum_of_mem_words h word hword '_' hmem
  exact absurd halphanum (by decide)

/-- Flat types without variables are determined by what stands for them in names. -/
theorem Ty.mangle_inj {s t : Ty} (hs : s.isFlat = true) (ht : t.isFlat = true)
    (hs' : s.isGeneric = false) (ht' : t.isGeneric = false) (h : s.mangle = t.mangle) :
  s = t
  := by
  have hwords : s.words = t.words := by
    refine wordsText_inj (not_mem_of_mem_words hs') (not_mem_of_mem_words ht') ?_
    rw [← mangle_eq, ← mangle_eq, h]
  refine (s.isDetermined hs hs' t [] [] ht ht' (fun _ _ => ?_) (by rw [hwords])).1
  simp [Stops]

theorem Ty.not_mem_mangle {type : Ty} (h : type.isGeneric = false) :
  '$' ∉ type.mangle.toList
  := by
  intro hmem
  have hwords : '$' ∈ wordsText type.words := by
    rw [← mangle_eq]
    exact List.mem_append_left _ hmem
  obtain ⟨word, hword, hmem⟩ := List.mem_flatMap.mp hwords
  rcases List.mem_append.mp hmem with hmem | hmem
  · exact absurd (type.isAlphanum_of_mem_words h word hword _ hmem) (by decide)
  · simp at hmem

/-- The name of a type starts with a letter. -/
theorem Ty.mangle_ne_toDigits {type : Ty} (h : type.isGeneric = false) (n : Nat) :
  type.mangle.toList ≠ Nat.toDigits 10 n
  := by
  intro heq
  refine not_stops_words h [] ?_
  have hwords : type.words = [Nat.toDigits 10 n] := by
    refine wordsText_inj (not_mem_of_mem_words h) ?_ (by rw [← mangle_eq, heq]; simp)
    simp only [List.forall_mem_singleton]
    exact not_mem_toDigits (by decide)
  rw [hwords]
  exact stops_length n []

/-- Whether a binding is to a flat type or to a length. -/
def Binding.isFlat : Binding → Bool
  | .type t => t.isFlat
  | .length _ => true

/-- What stands for a length without variables in a name. -/
theorem ArrayLength.exists_text_eq {length : ArrayLength} (h : length.isGeneric = false) :
  ∃ n, length = .fixed n ∧ length.text.toList = Nat.toDigits 10 n
  := by
  cases length with
  | fixed n => exact ⟨n, rfl, by simp [ArrayLength.text]⟩
  | var name => simp [ArrayLength.isGeneric] at h

theorem Binding.mangle_inj {a b : Binding} (ha : a.isFlat = true) (hb : b.isFlat = true)
    (ha' : a.isGeneric = false) (hb' : b.isGeneric = false) (h : a.mangle.toList = b.mangle.toList) :
  a = b
  := by
  cases a with
  | type s =>
    cases b with
    | type t => exact congrArg _ (Ty.mangle_inj ha hb ha' hb' (String.toList_inj.mp h))
    | length length =>
      obtain ⟨n, rfl, hn⟩ := ArrayLength.exists_text_eq hb'
      exact absurd (h.trans hn) (Ty.mangle_ne_toDigits ha' n)
  | length length =>
    obtain ⟨n, rfl, hn⟩ := ArrayLength.exists_text_eq ha'
    cases b with
    | type t => exact absurd (h.symm.trans hn) (Ty.mangle_ne_toDigits hb' n)
    | length length' =>
      obtain ⟨n', rfl, hn'⟩ := ArrayLength.exists_text_eq hb'
      rw [Binding.mangle, hn, Binding.mangle, hn', toDigits_inj] at h
      rw [h]

theorem Binding.not_mem_mangle {b : Binding} (h : b.isGeneric = false) :
  '$' ∉ b.mangle.toList
  := by
  cases b with
  | type t => exact Ty.not_mem_mangle h
  | length length =>
    obtain ⟨n, rfl, hn⟩ := ArrayLength.exists_text_eq h
    rw [Binding.mangle, hn]
    exact not_mem_toDigits (by decide)

/-! ## Substitutions -/

/-- Whether all bindings are to flat types or to lengths. -/
def Substitution.isFlat (σ : Substitution) : Bool := σ.bindings.all fun (_, b) => b.isFlat

theorem Substitution.toList_mangle (σ : Substitution) (base : String) :
  (σ.mangle base).toList
    = base.toList ++ (σ.bindings.map fun entry => entry.2.mangle.toList).flatMap ('$' :: ·)
  := by
  have hjoin : ∀ names : List String,
      (String.join (names.map ("$" ++ ·))).toList = (names.map String.toList).flatMap ('$' :: ·) := by
    intro names
    induction names with
    | nil => rfl
    | cons name names ih => simp [ih]
  simpa [mangle, Function.comp_def] using hjoin (σ.bindings.map fun entry => entry.2.mangle)

/--
Instances of one generic function under substitutions that bind the same variables, to lengths and
to flat types, have different names.
-/
theorem Substitution.eq_of_mangle_eq {σ τ : Substitution} {base : String}
    (hvars : σ.bindings.map Prod.fst = τ.bindings.map Prod.fst)
    (hσ : σ.isConcrete = true) (hτ : τ.isConcrete = true)
    (hσ' : σ.isFlat = true) (hτ' : τ.isFlat = true) (h : σ.mangle base = τ.mangle base) :
  σ = τ
  := by
  simp only [isConcrete, isFlat, List.all_eq_true, Bool.not_eq_true'] at hσ hτ hσ' hτ'
  have hparts : ∀ {ρ : Substitution}, (∀ entry ∈ ρ.bindings, entry.2.isGeneric = false) →
      ∀ part ∈ ρ.bindings.map fun entry => entry.2.mangle.toList, '$' ∉ part := by
    simp only [List.forall_mem_map]
    exact fun hρ entry hentry => Binding.not_mem_mangle (hρ entry hentry)
  have hnames : σ.bindings.map (fun entry => entry.2.mangle.toList)
      = τ.bindings.map fun entry => entry.2.mangle.toList := by
    have htext := congrArg String.toList h
    rw [toList_mangle, toList_mangle] at htext
    have hsplit := congrArg (splitOn '$') (List.append_cancel_left htext)
    rw [← List.nil_append (List.flatMap _ _), splitOn_append_flatMap (by simp) (hparts hσ),
      ← List.nil_append (List.flatMap _ _), splitOn_append_flatMap (by simp) (hparts hτ)] at hsplit
    exact (List.cons.inj hsplit).2
  obtain ⟨bindings⟩ := σ
  obtain ⟨bindings'⟩ := τ
  congr 1
  clear h hparts
  induction bindings generalizing bindings' with
  | nil => simpa using hvars
  | cons entry bindings ih =>
    obtain ⟨name, b⟩ := entry
    cases bindings' with
    | nil => simp at hvars
    | cons entry' bindings' =>
      obtain ⟨name', b'⟩ := entry'
      simp only [List.map_cons, List.cons.injEq, List.forall_mem_cons] at hvars hnames hσ hτ hσ' hτ'
      obtain rfl := hvars.1
      obtain rfl := Binding.mangle_inj hσ'.1 hτ'.1 hσ.1 hτ.1 hnames.1
      rw [ih hσ.2 hσ'.2 bindings' hτ.2 hτ'.2 hvars.2 hnames.2]

/-- A substitution that is found again by the name of the instance, with tuples in an array in a tuple. -/
theorem eq_of_mangle_eq_arrayOfPairs :
  let type := Ty.tuple [.array (.tuple [.int, .bool]) (.fixed 3), .int]
  let found := (Substitution.empty.unify (.var "T") type).bindings
  found.mangle "f" = "f$tuple_array_tuple_int_bool_3_int" ∧ found = ⟨[("T", .type type)]⟩
  := by
  refine ⟨by decide, @Substitution.eq_of_mangle_eq _ _ "f" ?_ ?_ ?_ ?_ ?_ ?_⟩ <;> decide

/--
Two types that unify with a type variable, and that give two instances of a generic function the
same name. The second call is then one of the instance for the first.
-/
theorem mangle_nestedTuples :
  let first := Substitution.empty.unify (.var "T") (.tuple [.tuple [.int, .int], .int])
  let second := Substitution.empty.unify (.var "T") (.tuple [.tuple [.int, .int, .int]])
  first.error = none ∧ second.error = none
    ∧ first.bindings.isConcrete = true ∧ second.bindings.isConcrete = true
    ∧ first.bindings.bindings.map Prod.fst = second.bindings.bindings.map Prod.fst
    ∧ first.bindings ≠ second.bindings ∧ first.bindings.mangle "f" = second.bindings.mangle "f"
  := by decide

end FormCompiler
