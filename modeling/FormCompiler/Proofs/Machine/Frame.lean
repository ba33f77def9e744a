import FormCompiler.Proofs.Machine.Allocated

/-!
# The frame of selected code

The frame of selected code consists of areas that lie one behind the other: those of the slots that are used,
and one for each array or tuple that is made. What the code of an instruction addresses in the frame lies in
the area of the slot that the instruction names, or in the one that is made for it (`exists_frame_select`).

This is so if all values take as many words as are loaded and stored for them (`ValueType.IsSized`), and no
size is larger than the largest offset.
-/

namespace FormCompiler.Machine

open FormCompiler.Flow

/-! ## Areas -/

namespace Area

/-- All bytes of an area are in another one. -/
def Within (inner outer : Area) : Prop := outer.start ≤ inner.start ∧ inner.stop ≤ outer.stop

/-- One area ends before the other one starts. -/
def Apart (a b : Area) : Prop := a.stop ≤ b.start ∨ b.stop ≤ a.start

theorem ofSize_within {start size start' size' : Nat} :
  (ofSize start size).Within (ofSize start' size') ↔ start' ≤ start ∧ start + size ≤ start' + size'
  := Iff.rfl

end Area

theorem Stacked.le {low high : Nat} {areas : List Area} (h : Stacked low areas high) :
  low ≤ high
  := by
  induction areas generalizing low with
  | nil => exact Nat.le_of_eq h
  | cons area areas ih => exact h.1 ▸ h.2.1.trans (ih h.2.2)

theorem Stacked.within {low high : Nat} {areas : List Area} (h : Stacked low areas high) :
  ∀ area ∈ areas, area.Within ⟨low, high⟩
  := by
  induction areas generalizing low with
  | nil => simp
  | cons first areas ih =>
    obtain ⟨rfl, hle, hrest⟩ := h
    intro area harea
    rcases List.mem_cons.mp harea with rfl | harea
    · exact ⟨le_rfl, hrest.le⟩
    · obtain ⟨hlow, hhigh⟩ := ih hrest area harea
      exact ⟨hle.trans hlow, hhigh⟩

end FormCompiler.Machine

namespace FormCompiler.Flow

mutual

/-- Every part of a value that is loaded or stored as a word takes one. -/
def ValueType.IsSized : ValueType → Prop
  | .none => False
  | .vector lane width => 0 < lane.words ∧ 0 < width
  | .array element _ => element.IsSized
  | .tuple elements => AllSized elements
  | .int _ | .float _ | .bool | .str | .ptr | .function _ _ => True

/-- All values of several types take the words that are loaded and stored. -/
def AllSized : List ValueType → Prop
  | [] => True
  | type :: types => type.IsSized ∧ AllSized types

end

theorem AllSized.of_mem {types : List ValueType} (h : AllSized types) :
  ∀ type ∈ types, type.IsSized
  := by
  induction types with
  | nil => simp
  | cons first types ih =>
    rw [AllSized] at h
    exact List.forall_mem_cons.mpr ⟨h.1, ih h.2⟩

theorem totalWords_append (types types' : List ValueType) :
  totalWords (types ++ types') = totalWords types + totalWords types'
  := by
  induction types with
  | nil => simp [totalWords]
  | cons type types ih => simp only [List.cons_append, totalWords, ih, Nat.add_assoc]

theorem totalWords_replicate (count : Nat) (type : ValueType) :
  totalWords (List.replicate count type) = type.words * count
  := by
  induction count with
  | zero => simp [totalWords]
  | succ count ih => rw [List.replicate_succ, totalWords, ih, Nat.mul_succ, Nat.add_comm]

theorem forall₂_of_mapM_eq_ok {ε α β : Type} {g : α → Except ε β} {xs : List α} {ys : List β}
    (h : xs.mapM g = .ok ys) :
  List.Forall₂ (fun x y => g x = .ok y) xs ys
  := by
  induction xs generalizing ys with
  | nil =>
    obtain rfl := Except.ok.inj h
    exact .nil
  | cons x xs ih =>
    simp only [List.mapM_cons, bind_eq_ok, pure, Except.pure, Except.ok.injEq] at h
    obtain ⟨y, hy, ys, hys, rfl⟩ := h
    exact .cons hy (ih hys)

theorem words_le_totalWords {type : ValueType} {types : List ValueType} (h : type ∈ types) :
  type.words ≤ totalWords types
  := by
  obtain ⟨before, after, rfl⟩ := List.append_of_mem h
  rw [totalWords_append, totalWords]
  omega

theorem totalWords_take_add {types : List ValueType} {k : Nat} {type : ValueType} (h : types[k]? = some type) :
  totalWords (types.take k) + type.words ≤ totalWords types
  := by
  obtain ⟨hlt, rfl⟩ := List.getElem?_eq_some_iff.mp h
  conv_rhs => rw [← List.take_append_drop k types, List.drop_eq_getElem_cons hlt, totalWords_append, totalWords]
  omega

end FormCompiler.Flow

namespace FormCompiler.Machine

open FormCompiler.Flow

theorem words_pos {type : ValueType} (h : type.IsSized) (hscalar : isAggregate type = false) :
  0 < type.words
  := by
  cases type with
  | none => simp [ValueType.IsSized] at h
  | vector lane width =>
    rw [ValueType.IsSized] at h
    exact h.2
  | array | tuple => cases hscalar
  | int | float | bool | str | ptr | function => exact Nat.one_pos

/-! ## What is addressed -/

/-- The addresses of an instruction, each with the number of bytes that are accessed there. -/
def Instr.places : Instr ρ → List (Address ρ × Nat)
  | load _ address | store address _ => [(address, wordBytes)]
  | locate _ address => [(address, 0)]
  | copy dst source words => [(dst, wordBytes * words), (source, wordBytes * words)]
  | loadLanes _ address width | storeLanes address _ width => [(address, wordBytes * width)]
  | move .. | binary .. | unary .. | convert .. | check .. | call .. | alloc .. | free _ | binaryLanes .. => []

/--
So many bytes from an address on lie in one of some areas of the frame, when a register that is used as an
index has a value, or they are among the first ones behind the address in a register.
-/
def Address.StaysIn (areas : List Area) (depths : List Nat) (index size : Nat) : Address ρ → Prop
  | frame offset => ∃ area ∈ areas, (Area.ofSize offset size).Within area
  | element base _ scale => ∃ area ∈ areas, (Area.ofSize (base + scale * index) size).Within area
  | based _ offset => ∃ depth ∈ depths, offset + size ≤ depth
  | symbol _ => True

/-- What an instruction addresses lies in some areas of the frame. -/
def Instr.StaysIn (areas : List Area) (depths : List Nat) (index : Nat) (i : Instr ρ) : Prop :=
  ∀ place ∈ i.places, place.1.StaysIn areas depths index place.2

section

variable {areas : List Area} {depths : List Nat} {index : Nat}

@[simp]
theorem Instr.staysIn_load {dst : ρ} {address : Address ρ} :
  (load dst address).StaysIn areas depths index ↔ address.StaysIn areas depths index wordBytes
  := by
  simp [StaysIn, places]

@[simp]
theorem Instr.staysIn_store {source : Operand ρ} {address : Address ρ} :
  (store address source).StaysIn areas depths index ↔ address.StaysIn areas depths index wordBytes
  := by
  simp [StaysIn, places]

@[simp]
theorem Instr.staysIn_locate {dst : ρ} {address : Address ρ} :
  (locate dst address).StaysIn areas depths index ↔ address.StaysIn areas depths index 0
  := by
  simp [StaysIn, places]

@[simp]
theorem Instr.staysIn_copy {dst source : Address ρ} {words : Nat} :
  (copy dst source words).StaysIn areas depths index
    ↔ dst.StaysIn areas depths index (wordBytes * words) ∧ source.StaysIn areas depths index (wordBytes * words)
  := by
  simp [StaysIn, places]

@[simp]
theorem Instr.staysIn_loadLanes {dst : ρ} {address : Address ρ} {width : Nat} :
  (loadLanes dst address width).StaysIn areas depths index ↔ address.StaysIn areas depths index (wordBytes * width)
  := by
  simp [StaysIn, places]

@[simp]
theorem Instr.staysIn_storeLanes {source : Operand ρ} {address : Address ρ} {width : Nat} :
  (storeLanes address source width).StaysIn areas depths index
    ↔ address.StaysIn areas depths index (wordBytes * width)
  := by
  simp [StaysIn, places]

/-- An instruction that addresses nothing stays everywhere. -/
theorem Instr.staysIn_of_places_eq_nil {i : Instr ρ} (h : i.places = []) :
  i.StaysIn areas depths index
  := by
  rw [StaysIn, h]
  exact List.forall_mem_nil _

end

theorem Address.StaysIn.mono {areas areas' : List Area} {depths depths' : List Nat} {index size : Nat}
    {address : Address ρ} (h : address.StaysIn areas depths index size) (hareas : areas ⊆ areas')
    (hdepths : depths ⊆ depths') :
  address.StaysIn areas' depths' index size
  := by
  cases address with
  | frame | element =>
    obtain ⟨area, harea, hwithin⟩ := h
    exact ⟨area, hareas harea, hwithin⟩
  | based =>
    obtain ⟨depth, hdepth, hle⟩ := h
    exact ⟨depth, hdepths hdepth, hle⟩
  | symbol => trivial

theorem Address.StaysIn.size_le {areas : List Area} {depths : List Nat} {index size size' : Nat}
    {address : Address ρ} (h : address.StaysIn areas depths index size) (hle : size' ≤ size) :
  address.StaysIn areas depths index size'
  := by
  cases address with
  | frame | element =>
    obtain ⟨area, harea, hlow, hhigh⟩ := h
    exact ⟨area, harea, hlow, (Nat.add_le_add_left hle _).trans hhigh⟩
  | based =>
    obtain ⟨depth, hdepth, hend⟩ := h
    exact ⟨depth, hdepth, (Nat.add_le_add_left hle _).trans hend⟩
  | symbol => trivial

/-- The number of bytes of each variable of an instruction. -/
def depthsOf (f : Flow.Function) (i : Flow.Instr) : List Nat :=
  (i.uses ++ i.def?.toList).map fun v => wordBytes * (f.varType v).words

/-- The area of a slot. -/
def slotArea (f : Flow.Function) (offsets : List Nat) (slot : SlotId) : Area :=
  .ofSize (offsets.getD slot 0) (wordBytes * (f.slotType slot).words)

/--
The index of an instruction may have a value: the array has such an element, and if the index is an immediate, it
is this one.
-/
def MayIndex (f : Flow.Function) (index : Nat) : Flow.Instr → Prop
  | .loadElement _ slot v | .storeElement slot v _ =>
    (∃ element length, f.slotType slot = .array element length ∧ index < length)
      ∧ ∀ n, (immediates f).lookup v = some n → n = index
  | _ => True

/-- The code of an instruction stays in areas of the frame, whatever element its index is that of. -/
def StaysIn (f : Flow.Function) (areas : List Area) (i : Flow.Instr) (code : List (Instr ρ)) : Prop :=
  ∀ index, MayIndex f index i → ∀ j ∈ code, j.StaysIn areas (depthsOf f i) index

/-- Areas that are made for the value of a variable that an instruction sets. -/
def MadeFor (f : Flow.Function) (dst : Option VarId) (areas : List Area) : Prop :=
  ∀ area ∈ areas, ∃ d ∈ dst, ∃ o, area = .ofSize o (wordBytes * (f.varType d).words)

theorem madeFor_nil (f : Flow.Function) (dst : Option VarId) :
  MadeFor f dst []
  := List.forall_mem_nil _

/-! ## The frame of a function -/

/-- The values of a function take the words that are loaded and stored, and no size is too large. -/
structure HasSizes (f : Flow.Function) : Prop where
  slots : ∀ slot ∈ usedSlots f,
    (f.slotType slot).IsSized ∧ wordBytes * (f.slotType slot).words ≤ maxOffset
  vars : ∀ type ∈ f.varTypes, (type = .none ∨ type.IsSized) ∧ wordBytes * type.words ≤ maxOffset

theorem HasSizes.le {f : Flow.Function} (h : HasSizes f) {v : VarId} {type : ValueType}
    (hv : f.varTypes[v]? = some type) :
  wordBytes * type.words ≤ maxOffset
  := (h.vars type (List.mem_of_getElem? hv)).2

/--
The code of some lines, each with the areas that are made for it, stays in these, in the areas of the slots that the
line names and in some others.
-/
def LinesStayIn (f : Flow.Function) (offsets : List Nat) (others : List Area) (lines : List Line)
    (pieces : List (List (Instr ρ) × List Area)) : Prop :=
  List.Forall₂ (fun line piece => MadeFor f line.instr.def? piece.2
    ∧ StaysIn f (piece.2 ++ (slotsOf line.instr).map (slotArea f offsets) ++ others) line.instr piece.1) lines pieces

/-- The code of a block stays in areas of the frame; some of them are made for it. -/
def BlockStaysIn (f : Flow.Function) (offsets : List Nat) (b : SelectedBlock) (own : List Area) : Prop :=
  ∃ pieces, b.body = pieces.flatMap (·.1) ∧ own = pieces.flatMap (·.2)
    ∧ LinesStayIn f offsets [] (f.block b.id).body pieces

/-! ## Code of instructions -/

theorem bytesFor_of_le {words : Nat} (h : wordBytes * words ≤ maxOffset) :
  bytesFor words = wordBytes * words
  := by
  rw [bytesFor, Nat.mul_comm]
  exact Nat.min_eq_left h

section

variable {f : Flow.Function} {areas : List Area} {depths : List Nat} {index : Nat} {code : List (Instr VReg)}

/-- A value is loaded from its address, or copied from there to an area of its own. -/
theorem LoadCode.staysIn {dst : VReg} {type : ValueType} {address : Address VReg} {own : List Area}
    (h : LoadCode dst type address code own) (hsized : type.IsSized) (hle : wordBytes * type.words ≤ maxOffset)
    (haddress : address.StaysIn areas depths index (wordBytes * type.words)) :
  ∀ j ∈ code, j.StaysIn (own ++ areas) depths index
  := by
  cases h with
  | word hscalar =>
    have hpos := words_pos hsized hscalar
    exact List.forall_mem_singleton.mpr
      (Instr.staysIn_load.mpr (haddress.size_le (Nat.le_mul_of_pos_right wordBytes hpos)))
  | value o =>
    rw [bytesFor_of_le hle]
    have hown : ∀ size ≤ wordBytes * type.words,
        (Address.frame o : Address VReg).StaysIn (.ofSize o (wordBytes * type.words) :: areas) depths index size :=
      fun size hsize => ⟨_, List.mem_cons_self, Area.ofSize_within.mpr ⟨le_rfl, Nat.add_le_add_left hsize _⟩⟩
    have hsource := haddress.mono (List.subset_cons_self (.ofSize o (wordBytes * type.words)) areas)
      (List.Subset.refl depths)
    simpa using ⟨⟨hown _ le_rfl, hsource⟩, hown 0 (Nat.zero_le _)⟩

theorem madeFor_bytesFor {d : VarId} (hle : wordBytes * (f.varType d).words ≤ maxOffset) (o : Nat) :
  MadeFor f (some d) [.ofSize o (bytesFor (f.varType d).words)]
  := List.forall_mem_singleton.mpr ⟨d, rfl, o, by rw [bytesFor_of_le hle]⟩

theorem LoadCode.madeFor {dst : VarId} {address : Address VReg} {own : List Area}
    (h : LoadCode dst (f.varType dst) address code own) (hle : wordBytes * (f.varType dst).words ≤ maxOffset) :
  MadeFor f (some dst) own
  := by
  cases h with
  | word => exact madeFor_nil _ _
  | value o => exact madeFor_bytesFor hle o

theorem staysIn_storeCode {address : Address VReg} {type : ValueType} (value : VarId) (hsized : type.IsSized)
    (haddress : address.StaysIn areas depths index (wordBytes * type.words))
    (hdepth : wordBytes * type.words ∈ depths) :
  (storeCode f address type value).StaysIn areas depths index
  := by
  unfold storeCode
  split
  · exact Instr.staysIn_copy.mpr ⟨haddress, _, hdepth, (Nat.zero_add _).le⟩
  · next hscalar =>
    have hpos := words_pos hsized (by simpa using hscalar)
    exact Instr.staysIn_store.mpr (haddress.size_le (Nat.le_mul_of_pos_right wordBytes hpos))

/-- The parts of an array or tuple are stored one behind the other. -/
theorem staysIn_partsCode {offset : Nat} {parts : List (VarId × ValueType)}
    (hsized : ∀ part ∈ parts, part.2.IsSized ∧ wordBytes * part.2.words ≤ maxOffset)
    (harea : ∃ area ∈ areas, (Area.ofSize offset (wordBytes * totalWords (parts.map (·.2)))).Within area)
    (hdepths : ∀ part ∈ parts, wordBytes * part.2.words ∈ depths) :
  ∀ j ∈ partsCode f offset parts, j.StaysIn areas depths index
  := by
  induction parts generalizing offset with
  | nil => exact List.forall_mem_nil _
  | cons part parts ih =>
    rw [List.forall_mem_cons] at hsized hdepths
    obtain ⟨area, harea, hlow, hhigh⟩ := harea
    have htotal : wordBytes * totalWords ((part :: parts).map (·.2))
        = wordBytes * part.2.words + wordBytes * totalWords (parts.map (·.2)) := Nat.mul_add _ _ _
    simp only [Area.ofSize, htotal] at hlow hhigh
    refine List.forall_mem_cons.mpr ⟨staysIn_storeCode _ hsized.1.1 ⟨area, harea, hlow, ?_⟩ hdepths.1,
      ih hsized.2 ⟨area, harea, ?_⟩ hdepths.2⟩
    · simp only [Area.ofSize]
      omega
    · rw [bytesFor_of_le hsized.1.2]
      simp only [Area.Within, Area.ofSize]
      omega

theorem staysIn_setCode (label : String) (dst : VarId) (value : Value) :
  (setCode f label dst value).StaysIn areas depths index
  := by
  cases value with
  | const k =>
    cases k with
    | str => exact Instr.staysIn_locate.mpr trivial
    | int | bool | float => exact Instr.staysIn_of_places_eq_nil rfl
  | copy | unary | cast => exact Instr.staysIn_of_places_eq_nil rfl
  | binary =>
    rw [setCode]
    split
    · exact Instr.staysIn_of_places_eq_nil rfl
    · exact Instr.staysIn_of_places_eq_nil rfl

end

/-! ## Addresses of elements -/

section

variable {base words length index : Nat}

/-- The address of an element, if the whole array is addressable. -/
theorem elementPlace_eq (hindex : index < length) (hstop : base + wordBytes * (words * length) ≤ maxOffset) :
  min (base + min (words * wordBytes) maxOffset * min index maxOffset) maxOffset = base + wordBytes * words * index
    ∧ min (words * wordBytes) maxOffset = wordBytes * words
  := by
  have hnext : words * index + words ≤ words * length := by
    rw [← Nat.mul_succ]
    exact Nat.mul_le_mul_left words hindex
  have hscale : min (words * wordBytes) maxOffset = wordBytes * words := by
    rw [Nat.mul_comm]
    apply Nat.min_eq_left
    simp only [wordBytes] at hstop ⊢
    omega
  refine ⟨?_, hscale⟩
  have hmul : wordBytes * words * min index maxOffset = wordBytes * words * index := by
    rcases Nat.eq_zero_or_pos words with rfl | hpos
    · simp
    · have hle : index ≤ words * index := Nat.le_mul_of_pos_left index hpos
      rw [Nat.min_eq_left]
      simp only [wordBytes] at hstop
      omega
  rw [hscale, hmul, Nat.mul_assoc]
  apply Nat.min_eq_left
  simp only [wordBytes] at hstop ⊢
  omega

/-- Some elements lie in the area of the array. -/
theorem elements_within {count : Nat} (hcount : index + count ≤ length) :
  (Area.ofSize (base + wordBytes * words * index) (wordBytes * words * count)).Within
    (Area.ofSize base (wordBytes * (words * length)))
  := by
  rw [Area.ofSize_within]
  have hall := Nat.mul_le_mul_left (wordBytes * words) hcount
  rw [Nat.mul_add, Nat.mul_assoc _ _ length] at hall
  omega

end

/-! ## Instructions -/

section

variable {f : Flow.Function} {slots : List Nat} {slot : SlotId} {v dst : VarId}

/-- The address of an element lies in the area of the slot. -/
theorem IsElement.staysIn
    {element : ValueType} {length : Nat} (harray : f.slotType slot = .array element length)
    (hstop : (slotArea f slots slot).stop ≤ maxOffset) {address : Address VReg}
    (h : IsElement f slots slot v address) {index : Nat} (hindex : index < length)
    (himmediate : ∀ n, (immediates f).lookup v = some n → n = index) (depths : List Nat) :
  address.StaysIn [slotArea f slots slot] depths index (wordBytes * element.words)
  := by
  have hwords : (f.slotType slot).words = element.words * length := by rw [harray, ValueType.words]
  rw [slotArea, hwords] at hstop ⊢
  obtain ⟨hplace, hscale⟩ := elementPlace_eq hindex hstop
  have hwithin := @elements_within (slots.getD slot 0) element.words length index 1 hindex
  rw [Nat.mul_one] at hwithin
  rcases h.place element length harray with ⟨n, hn, rfl⟩ | rfl
  · obtain rfl : n = index := himmediate n hn
    rw [if_neg (by omega), Int.toNat_natCast, elementOffsetFor, hplace]
    exact ⟨_, List.mem_cons_self, hwithin⟩
  · rw [bytesFor, hscale]
    exact ⟨_, List.mem_cons_self, hwithin⟩

/-- A slot lies in its area. -/
theorem staysIn_slot (f : Flow.Function) (slots : List Nat) (slot : SlotId) (depths : List Nat) (index : Nat) :
  (Address.frame (slots.getD slot 0) : Address VReg).StaysIn [slotArea f slots slot] depths index
    (wordBytes * (f.slotType slot).words)
  := ⟨_, List.mem_cons_self, le_rfl, le_rfl⟩

/-- The lanes that a vector is loaded from or stored to lie in the area of the slot. -/
theorem IsOffset.staysIn
    (hsizes : HasSizes f) {start : Nat} (hcheck : Verify.lanes f v slot start = .ok ())
    (hstop : (slotArea f slots slot).stop ≤ maxOffset) {offset : Nat} (h : IsOffset f slots slot start offset)
    (depths : List Nat) (index : Nat) :
  (Address.frame offset : Address VReg).StaysIn [slotArea f slots slot] depths index
    (wordBytes * registerWords (f.varType v))
  := by
  obtain ⟨element, length, width, harray, ht, hrange⟩ := Verify.varType_of_lanes hcheck
  have hwords : (f.slotType slot).words = element.words * length := by rw [harray, ValueType.words]
  obtain rfl := h element length harray
  obtain ⟨hsized, -⟩ := hsizes.vars _ (List.mem_of_getElem? ht)
  obtain ⟨hpos, hwidth⟩ := hsized.resolve_left (by simp)
  rw [slotArea, hwords] at hstop ⊢
  have hvarType : f.varType v = .vector element width := by simp [Function.varType, ht]
  rw [hvarType, registerWords, elementOffsetFor, (elementPlace_eq (show start < length by omega) hstop).1]
  have hlanes : wordBytes * width ≤ wordBytes * element.words * width :=
    Nat.mul_le_mul_right width (Nat.le_mul_of_pos_right wordBytes hpos)
  exact Address.StaysIn.size_le ⟨_, List.mem_cons_self, elements_within hrange⟩ hlanes

theorem mem_depthsOf {i : Flow.Instr} (hv : v ∈ i.uses ∨ i.def? = some v) {type : ValueType}
    (htype : f.varTypes[v]? = some type) :
  wordBytes * type.words ∈ depthsOf f i
  := by
  refine List.mem_map.mpr ⟨v, ?_, by simp [Function.varType, htype]⟩
  simpa using hv

/-- Code that addresses nothing in the frame, and for which no area is made. -/
theorem madeFor_and_staysIn {i : Flow.Instr} {code : List (Instr VReg)}
    (h : ∀ {areas depths index}, ∀ j ∈ code, j.StaysIn areas depths index) :
  MadeFor f i.def? [] ∧ StaysIn f ([] ++ (slotsOf i).map (slotArea f slots)) i code
  := ⟨madeFor_nil _ _, fun _ _ => h⟩

section

variable (hsizes : HasSizes f)

include hsizes

theorem HasSizes.varType {type : ValueType} (h : f.varTypes[v]? = some type) :
  f.varType v = type ∧ wordBytes * (f.varType v).words ≤ maxOffset
  := by
  have htype : f.varType v = type := by simp [Function.varType, h]
  exact ⟨htype, htype ▸ hsizes.le h⟩

/-- The parts of an array or tuple take the words that the whole takes. -/
theorem parts_of_check {elements : List VarId}
    (hcheck : Verify.instr f (.makeArray dst elements) = .ok () ∨ Verify.instr f (.makeTuple dst elements) = .ok ()) :
  wordBytes * (f.varType dst).words ≤ maxOffset
    ∧ (partTypes (f.varType dst) elements.length).length = elements.length
    ∧ (f.varType dst).words = totalWords (partTypes (f.varType dst) elements.length)
    ∧ ∀ part ∈ partTypes (f.varType dst) elements.length, part.IsSized
  := by
  rcases hcheck with hcheck | hcheck
  · simp only [Verify.instr, bind_eq_ok, Verify.varType_eq_ok] at hcheck
    obtain ⟨t, ht, hcheck⟩ := hcheck
    obtain ⟨htype, hle⟩ := hsizes.varType ht
    cases t with
    | array element length =>
      simp only [ValueType.array?, check_bind_eq_ok, Verify.ensure_eq_ok, decide_eq_true_eq] at hcheck
      obtain ⟨rfl, -⟩ := hcheck
      obtain ⟨hsized, -⟩ := hsizes.vars _ (List.mem_of_getElem? ht)
      refine ⟨hle, ?_⟩
      rw [htype]
      exact ⟨List.length_replicate, (totalWords_replicate elements.length element).symm,
        fun part hpart => List.eq_of_mem_replicate hpart ▸ hsized.resolve_left (by simp)⟩
    | int | float | bool | str | ptr | none | tuple | function | vector =>
      simp [ValueType.array?, throw, throwThe, MonadExceptOf.throw] at hcheck
  · simp only [Verify.instr, bind_eq_ok, Verify.expect_eq_ok] at hcheck
    obtain ⟨types, htypes, hdst⟩ := hcheck
    obtain ⟨htype, hle⟩ := hsizes.varType hdst
    obtain ⟨hsized, -⟩ := hsizes.vars _ (List.mem_of_getElem? hdst)
    refine ⟨hle, ?_⟩
    rw [htype]
    exact ⟨(forall₂_of_mapM_eq_ok htypes).length_eq.symm, rfl, AllSized.of_mem (hsized.resolve_left (by simp))⟩

/-- An array or a tuple is made in an area of its own. -/
theorem staysIn_make {i : Flow.Instr} {elements : List VarId}
    (hi : i = .makeArray dst elements ∨ i = .makeTuple dst elements) (hcheck : Verify.instr f i = .ok ()) (o : Nat) :
  MadeFor f i.def? [.ofSize o (bytesFor (f.varType dst).words)]
    ∧ StaysIn f ([.ofSize o (bytesFor (f.varType dst).words)] ++ (slotsOf i).map (slotArea f slots)) i
      (partsCode f o (elements.zip (partTypes (f.varType dst) elements.length)) ++ [.locate dst (.frame o)])
  := by
  have hcheck' : Verify.instr f (.makeArray dst elements) = .ok ()
      ∨ Verify.instr f (.makeTuple dst elements) = .ok () := by
    rcases hi with rfl | rfl
    · exact .inl hcheck
    · exact .inr hcheck
  obtain ⟨huses, hdef⟩ : i.uses = elements ∧ i.def? = some dst := by rcases hi with rfl | rfl <;> exact ⟨rfl, rfl⟩
  obtain ⟨hle, hlength, htotal, hsized⟩ := parts_of_check hsizes hcheck'
  have hsnd : (elements.zip (partTypes (f.varType dst) elements.length)).map (·.2)
      = partTypes (f.varType dst) elements.length := List.map_snd_zip hlength.le
  refine ⟨hdef ▸ madeFor_bytesFor hle o, fun index _ => ?_⟩
  rw [bytesFor_of_le hle]
  refine List.forall_mem_append.mpr ⟨staysIn_partsCode (fun part hpart => ?_) ⟨_, List.mem_cons_self, ?_⟩
    fun part hpart => ?_, ?_⟩
  · have hmem := (List.of_mem_zip hpart).2
    refine ⟨hsized _ hmem, le_trans (Nat.mul_le_mul_left _ ?_) hle⟩
    rw [htotal]
    exact words_le_totalWords hmem
  · rw [hsnd, ← htotal]
    exact Area.ofSize_within.mpr ⟨le_rfl, le_rfl⟩
  · obtain ⟨hmem, htype⟩ := part_type hcheck' hpart
    exact mem_depthsOf (.inl (huses ▸ hmem)) htype
  · exact List.forall_mem_singleton.mpr (Instr.staysIn_locate.mpr
      ⟨_, List.mem_cons_self, Area.ofSize_within.mpr ⟨le_rfl, Nat.le_add_right _ _⟩⟩)

/--
Code of an instruction stays in the areas of the slots that the instruction names and in those that are made for it.
-/
theorem Selects.staysIn
    {count : Nat} {i : Flow.Instr} {code : List (Instr VReg)} {own : List Area}
    (h : Selects f slots count i code own) (hcheck : Verify.instr f i = .ok ())
    (hslots : ∀ slot ∈ slotsOf i, slot ∈ usedSlots f ∧ (slotArea f slots slot).stop ≤ maxOffset) :
  MadeFor f i.def? own ∧ StaysIn f (own ++ (slotsOf i).map (slotArea f slots)) i code
  := by
  cases h with
  | skip => exact madeFor_and_staysIn (List.forall_mem_nil _)
  | set label => exact madeFor_and_staysIn (List.forall_mem_singleton.mpr (staysIn_setCode _ _ _))
  | call | boundsCheck | alloc | binaryLanes =>
    exact madeFor_and_staysIn (List.forall_mem_singleton.mpr (Instr.staysIn_of_places_eq_nil rfl))
  | free hfree =>
    have hdef : i.def? = none := by rcases hfree with rfl | rfl <;> rfl
    exact madeFor_and_staysIn (List.forall_mem_singleton.mpr (Instr.staysIn_of_places_eq_nil rfl))
  | locateGlobal => exact madeFor_and_staysIn (List.forall_mem_singleton.mpr (Instr.staysIn_locate.mpr trivial))
  | loadGlobal => exact madeFor_and_staysIn (List.forall_mem_singleton.mpr (Instr.staysIn_load.mpr trivial))
  | @callValue dst _ _ _ _ returned o hreturned =>
    obtain ⟨type, ht, hvalue⟩ := Verify.expectThat_eq_ok.mp hcheck
    obtain ⟨rfl, hle⟩ := hsizes.varType ht
    have hsized : (f.varType dst).IsSized := (hsizes.vars _ (List.mem_of_getElem? ht)).1.resolve_left fun hnone => by
      simp [hnone, ValueType.isNone] at hvalue
    refine ⟨madeFor_bytesFor hle o, fun index _ =>
      List.forall_mem_cons.mpr ⟨Instr.staysIn_of_places_eq_nil rfl, ?_⟩⟩
    refine (LoadCode.value o).staysIn hsized hle (show (Address.based returned 0).StaysIn _ _ _ _ from ?_)
    exact ⟨_, mem_depthsOf (.inr rfl) ht, (Nat.zero_add _).le⟩
  | load h =>
    obtain ⟨hsized, hle⟩ := hsizes.slots _ (hslots _ List.mem_cons_self).1
    obtain ⟨htype, -⟩ := hsizes.varType (Verify.varType_of_slot hcheck)
    rw [← htype] at hsized hle
    refine ⟨h.madeFor hle, fun index _ => h.staysIn hsized hle ?_⟩
    exact htype ▸ staysIn_slot f slots _ _ index
  | store =>
    obtain ⟨hsized, -⟩ := hsizes.slots _ (hslots _ List.mem_cons_self).1
    refine ⟨madeFor_nil _ _, fun index _ => List.forall_mem_singleton.mpr ?_⟩
    exact staysIn_storeCode _ hsized (staysIn_slot f slots _ _ index)
      (mem_depthsOf (.inl (by simp [Flow.Instr.uses])) (Verify.varType_of_slot hcheck))
  | loadElement haddress h =>
    obtain ⟨hused, hstop⟩ := hslots _ List.mem_cons_self
    obtain ⟨element, length, harray, hvalue⟩ := Verify.varType_of_element hcheck
    obtain ⟨hsized, -⟩ := hsizes.slots _ hused
    obtain ⟨htype, hle⟩ := hsizes.varType hvalue
    rw [harray, ValueType.IsSized, ← htype] at hsized
    refine ⟨h.madeFor hle, fun index hindex => h.staysIn hsized hle ?_⟩
    obtain ⟨⟨element', length', harray', hlt⟩, himmediate⟩ := hindex
    obtain ⟨rfl, rfl⟩ := ValueType.array.inj (harray.symm.trans harray')
    exact htype ▸ haddress.staysIn harray hstop hlt himmediate _
  | storeElement haddress helement =>
    obtain ⟨hused, hstop⟩ := hslots _ List.mem_cons_self
    obtain ⟨element, length, harray, hvalue⟩ := Verify.varType_of_element hcheck
    obtain rfl := helement element length harray
    obtain ⟨hsized, -⟩ := hsizes.slots _ hused
    rw [harray, ValueType.IsSized] at hsized
    refine ⟨madeFor_nil _ _, fun index hindex => List.forall_mem_singleton.mpr ?_⟩
    obtain ⟨⟨element', length', harray', hlt⟩, himmediate⟩ := hindex
    obtain ⟨rfl, rfl⟩ := ValueType.array.inj (harray.symm.trans harray')
    refine staysIn_storeCode _ hsized ?_ (mem_depthsOf (.inl (by simp [Flow.Instr.uses])) hvalue)
    exact (haddress.staysIn harray hstop hlt himmediate _).mono (by simp [slotsOf, Flow.Instr.readSlot?])
      (List.Subset.refl _)
  | make o hmake => exact staysIn_make hsizes hmake hcheck o
  | @extract dst tuple index _ _ h =>
    obtain ⟨elements, element, htuple, helement, hvalue⟩ := Verify.varType_of_extract hcheck
    obtain ⟨htupleType, htupleLe⟩ := hsizes.varType htuple
    obtain ⟨htype, hle⟩ := hsizes.varType hvalue
    obtain ⟨hsized, -⟩ := hsizes.vars _ (List.mem_of_getElem? htuple)
    have hbefore : wordBytes * totalWords (elements.take index) + wordBytes * element.words
        ≤ wordBytes * totalWords elements := by
      rw [← Nat.mul_add]
      exact Nat.mul_le_mul_left _ (totalWords_take_add helement)
    have helementSized := AllSized.of_mem (hsized.resolve_left (by simp)) element (List.mem_of_getElem? helement)
    have hdepth := mem_depthsOf (i := .extract dst tuple index) (.inl (by simp [Flow.Instr.uses])) htuple
    refine ⟨h.madeFor hle, fun _ _ => h.staysIn (htype ▸ helementSized) hle ⟨_, hdepth, ?_⟩⟩
    rw [htupleType] at htupleLe ⊢
    rw [htype, partTypes, bytesFor_of_le ((Nat.le_add_right _ _).trans (hbefore.trans htupleLe))]
    exact hbefore
  | loadLanes hoffset =>
    obtain ⟨-, hstop⟩ := hslots _ List.mem_cons_self
    refine ⟨madeFor_nil _ _, fun index _ => List.forall_mem_singleton.mpr ?_⟩
    exact Instr.staysIn_loadLanes.mpr (hoffset.staysIn hsizes hcheck hstop _ index)
  | storeLanes hoffset =>
    obtain ⟨-, hstop⟩ := hslots _ List.mem_cons_self
    refine ⟨madeFor_nil _ _, fun index _ => List.forall_mem_singleton.mpr ?_⟩
    exact Instr.staysIn_storeLanes.mpr ((hoffset.staysIn hsizes hcheck hstop _ index).mono
      (by simp [slotsOf, Flow.Instr.readSlot?]) (List.Subset.refl _))

/-! ## Blocks -/

theorem SelectsLines.stayIn
    (hslots : ∀ slot ∈ usedSlots f, (slotArea f slots slot).stop ≤ maxOffset) (hf : f.verify = .ok ()) {id : BlockId}
    {b : Flow.Block} (hb : f.blocks[id]? = some b) {count : Nat} {lines : List Line} (hlines : lines ⊆ b.body)
    {pieces : List (List (Instr VReg) × List Area)} (h : SelectsLines f slots count lines pieces) :
  LinesStayIn f slots [] lines pieces
  := by
  induction h with
  | nil => exact .nil
  | @cons line piece lines pieces hline _ ih =>
    have hmem : line.instr ∈ b.instrs := List.mem_map_of_mem (hlines List.mem_cons_self)
    have hused : ∀ slot ∈ slotsOf line.instr, slot ∈ usedSlots f := fun slot hslot =>
      List.mem_flatMap.mpr ⟨_, List.mem_flatMap.mpr ⟨b, List.mem_of_getElem? hb, hmem⟩, hslot⟩
    obtain ⟨hmade, hstays⟩ := hline.staysIn hsizes (Verify.instr_eq_ok hf hb hmem) fun slot hslot =>
      ⟨hused slot hslot, hslots slot (hused slot hslot)⟩
    refine .cons ⟨hmade, ?_⟩ (ih fun l hl => hlines (List.mem_cons_of_mem _ hl))
    rwa [List.append_nil]

theorem SelectsBlock.staysIn
    (hslots : ∀ slot ∈ usedSlots f, (slotArea f slots slot).stop ≤ maxOffset) (hf : f.verify = .ok ()) {count : Nat}
    {b : SelectedBlock} (hid : b.id ∈ f.reversePostorder) {own : List Area} (h : SelectsBlock f slots count b own) :
  BlockStaysIn f slots b own
  := by
  obtain ⟨⟨pieces, hbody, hown, hpieces⟩, -⟩ := h
  exact ⟨pieces, hbody, hown, hpieces.stayIn hsizes hslots hf (Verify.getElem?_of_mem_reversePostorder hf hid)
    (List.Subset.refl _)⟩

end

end

namespace Select

section

variable {f : Flow.Function} {c : SelectContext} {s s' : SelectState}

/-! ## Slots -/

end

end Select

end FormCompiler.Machine
