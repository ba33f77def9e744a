import FormCompiler.Machine.Generate
import FormCompiler.Proofs.Machine.Frame

/-!
# The frame of machine code

Allocation puts the places of virtual registers behind the frame of the selected code. What it adds loads from
these places and stores to them, and what it makes of an instruction addresses the same parts of the frame as the
instruction. So the frame of machine code consists of the areas of the slots, of those of the arrays and tuples that
are made, and of those of the registers, which lie one behind the other, and the code stays in them.
`exists_frame_generate` says so for all functions of an object.
-/

namespace FormCompiler.Machine

open FormCompiler.Flow

/-! ## Operands -/

/-- The operands that an instruction reads, arguments apart. -/
def Instr.sources : Instr ρ → List (Operand ρ)
  | move _ source | unary _ _ source | convert _ source _ | alloc _ source | store _ source | check source _
  | storeLanes _ source _ =>
    [source]
  | binary _ _ lhs rhs => [lhs, rhs]
  | load .. | locate .. | copy .. | call .. | free _ | loadLanes .. | binaryLanes .. => []

/-- The operands that control reads. -/
def Control.sources : Control ρ → List (Operand ρ)
  | compareBranch _ lhs rhs _ _ => [lhs, rhs]
  | ret value => value.toList
  | jump _ | branch .. | trap => []

/-- An operand that is a word of the frame is the first word of one of some areas. -/
def Operand.StaysIn (areas : List Area) : Operand ρ → Prop
  | frame offset => ∃ area ∈ areas, area.start = offset ∧ offset + wordBytes ≤ area.stop
  | reg _ | imm _ | float _ => True

/-- All operands of an instruction stay in some areas. -/
def Instr.ReadsIn (areas : List Area) (i : Instr ρ) : Prop := ∀ x ∈ i.sources ++ i.args, x.StaysIn areas

theorem Operand.IsPlain.staysIn {x : Operand ρ} (h : x.IsPlain) (areas : List Area) :
  x.StaysIn areas
  := by
  cases x with
  | frame offset => exact absurd rfl (h offset)
  | reg | imm | float => trivial

theorem Operand.IsPlain.map {x : Operand ρ} (h : x.IsPlain) (read : ρ → σ) :
  (x.map read).IsPlain
  := by
  cases x with
  | frame offset => exact absurd rfl (h offset)
  | reg | imm | float => exact nofun

theorem Instr.Fits.isPlain {W : World} {lanes : VReg → Nat} {i : Instr VReg} (h : i.Fits W lanes) :
  ∀ x ∈ i.sources ++ i.args, x.IsPlain
  := by
  cases i with
  | move | storeLanes => exact List.forall_mem_singleton.mpr h.plain
  | unary | convert | alloc | store | check => exact List.forall_mem_singleton.mpr h
  | binary => exact List.forall_mem_cons.mpr ⟨h.1, List.forall_mem_singleton.mpr h.2⟩
  | call callee convention args dst =>
    intro x hx
    obtain ⟨k, hk⟩ := List.getElem?_of_mem (show x ∈ args from hx)
    exact (h k x hk).plain
  | load | locate | copy | free | loadLanes | binaryLanes => exact nofun

theorem Control.Fits.isPlain {W : World} {lanes : VReg → Nat} {c : Control VReg} (h : c.Fits W lanes) :
  ∀ x ∈ c.sources, x.IsPlain
  := by
  cases c with
  | compareBranch => exact List.forall_mem_cons.mpr ⟨h.1, List.forall_mem_singleton.mpr h.2⟩
  | ret value =>
    cases value with
    | none => exact nofun
    | some value => exact List.forall_mem_singleton.mpr h.plain
  | jump | branch | trap => exact nofun

/-! ## Instructions on other registers -/

section

variable (read : ρ → σ) (arg : Operand ρ → Operand σ) (write : ρ → σ)

theorem Instr.places_map (i : Instr ρ) :
  (i.map read arg write).places = i.places.map fun place => (place.1.map read, place.2)
  := by
  cases i <;> rfl

variable {areas : List Area} {depths : List Nat} {index : Nat}

theorem Address.staysIn_map {size : Nat} (address : Address ρ) :
  (address.map read).StaysIn areas depths index size ↔ address.StaysIn areas depths index size
  := by
  cases address <;> rfl

theorem Instr.staysIn_map (i : Instr ρ) :
  (i.map read arg write).StaysIn areas depths index ↔ i.StaysIn areas depths index
  := by
  simp only [Instr.StaysIn, places_map, List.forall_mem_map, Address.staysIn_map]

end

theorem Instr.StaysIn.mono {areas areas' : List Area} {depths depths' : List Nat} {index : Nat} {i : Instr ρ}
    (h : i.StaysIn areas depths index) (hareas : areas ⊆ areas') (hdepths : depths ⊆ depths') :
  i.StaysIn areas' depths' index
  := fun place hplace => (h place hplace).mono hareas hdepths

/-! ## Registers in the frame -/

section

variable {a : Allocation} {spills : List Area} {v : VReg}

/-- If a virtual register is kept in the frame, its place is one of some areas. -/
def Allocation.KeepsIn (a : Allocation) (spills : List Area) (v : VReg) : Prop :=
  ∀ o, a.location v = .frame o → .ofSize o (wordBytes * a.lanes v) ∈ spills

/-- So many words from an address on stay in an area that starts there and is not shorter. -/
theorem staysIn_start {areas : List Area} {o count size : Nat} (harea : .ofSize o (wordBytes * count) ∈ areas)
    (hle : size ≤ wordBytes * count) (depths : List Nat) (index : Nat) :
  (Address.frame o : Address ρ).StaysIn areas depths index size
  := ⟨_, harea, Area.ofSize_within.mpr ⟨le_rfl, Nat.add_le_add_left hle o⟩⟩

theorem wordBytes_le_lanes (a : Allocation) (v : VReg) :
  wordBytes ≤ wordBytes * a.lanes v
  := Nat.le_mul_of_pos_right wordBytes (a.lanes_pos v)

theorem Allocation.KeepsIn.operand (h : a.KeepsIn spills v) :
  (a.location v).operand.StaysIn spills
  := by
  cases hlocation : a.location v with
  | reg r => trivial
  | frame o => exact ⟨_, h o hlocation, rfl, Nat.add_le_add_left (wordBytes_le_lanes a v) o⟩

/-- What reads a register in the frame stays in its place. -/
theorem staysIn_reload
    (h : a.KeepsIn spills v) {o : Nat} (hlocation : a.location v = .frame o) (r : Reg) (depths : List Nat)
    (index : Nat) :
  (Allocation.reload r o (a.words v)).StaysIn spills depths index
    ∧ (Allocation.reload r o (a.words v)).ReadsIn spills
  := by
  unfold Allocation.reload
  split
  · refine ⟨Instr.staysIn_loadLanes.mpr (staysIn_start (h o hlocation) ?_ _ _), nofun⟩
    exact Nat.mul_le_mul_left wordBytes (Nat.le_max_right 1 _)
  · exact ⟨Instr.staysIn_load.mpr (staysIn_start (h o hlocation) (wordBytes_le_lanes a v) _ _), nofun⟩

/-- What writes a register in the frame stays in its place. -/
theorem staysIn_spill
    (h : a.KeepsIn spills v) {o : Nat} (hlocation : a.location v = .frame o) (r : Reg) (depths : List Nat)
    (index : Nat) :
  (Allocation.spill o r (a.words v)).StaysIn spills depths index
    ∧ (Allocation.spill o r (a.words v)).ReadsIn spills
  := by
  unfold Allocation.spill
  split
  · refine ⟨Instr.staysIn_storeLanes.mpr (staysIn_start (h o hlocation) ?_ _ _), ?_⟩
    · exact Nat.mul_le_mul_left wordBytes (Nat.le_max_right 1 _)
    · exact List.forall_mem_singleton.mpr trivial
  · refine ⟨Instr.staysIn_store.mpr (staysIn_start (h o hlocation) (wordBytes_le_lanes a v) _ _), ?_⟩
    exact List.forall_mem_singleton.mpr trivial

theorem staysIn_reloadCode {uses : List VReg} (h : ∀ v ∈ uses, a.KeepsIn spills v) (depths : List Nat)
    (index : Nat) :
  ∀ i ∈ a.reloadCode (a.reloads uses), i.StaysIn spills depths index ∧ i.ReadsIn spills
  := by
  intro i hi
  obtain ⟨v, hv, hreload⟩ := List.mem_filterMap.mp hi
  obtain ⟨huse, o, hlocation⟩ := mem_reloads.mp hv
  rw [hlocation] at hreload
  obtain rfl := Option.some.inj hreload
  exact staysIn_reload (h v huse) hlocation _ depths index

/-- What is added to an instruction: it loads and stores registers in the frame. -/
def Allocation.addedCode (a : Allocation) (i : Instr VReg) : List (Instr Reg) :=
  a.reloadCode (a.reloads i.operandUses) ++ i.def?.toList.flatMap a.spillCode

theorem mem_instr {i : Instr VReg} {j : Instr Reg} :
  j ∈ a.instr i ↔ j ∈ a.addedCode i ∨ j = i.map (a.readFrom (a.reloads i.operandUses)) a.inPlace a.writeTo
  := by
  simp only [Allocation.instr, Allocation.addedCode, List.mem_append, List.mem_singleton]
  exact or_right_comm

theorem staysIn_addedCode {i : Instr VReg} (h : ∀ v ∈ i.uses ++ i.def?.toList, a.KeepsIn spills v) (depths : List Nat)
    (index : Nat) :
  ∀ j ∈ a.addedCode i, j.StaysIn spills depths index ∧ j.ReadsIn spills
  := by
  refine List.forall_mem_append.mpr ⟨staysIn_reloadCode (fun v hv => h v ?_) depths index, fun j hj => ?_⟩
  · exact List.mem_append_left _ (List.mem_append_left _ hv)
  · obtain ⟨d, hd, hj⟩ := List.mem_flatMap.mp hj
    unfold Allocation.spillCode at hj
    split at hj
    · cases hj
    · next o hlocation =>
      obtain rfl := List.mem_singleton.mp hj
      exact staysIn_spill (h d (List.mem_append_right _ hd)) hlocation _ depths index

/-- The code of an instruction stays where the instruction does, and in the places of its registers. -/
theorem staysIn_instr {i : Instr VReg} (h : ∀ v ∈ i.uses ++ i.def?.toList, a.KeepsIn spills v) {areas : List Area}
    {depths : List Nat} {index : Nat} (hi : i.StaysIn areas depths index) :
  ∀ j ∈ a.instr i, j.StaysIn (areas ++ spills) depths index
  := by
  intro j hj
  rcases mem_instr.mp hj with hj | rfl
  · exact (staysIn_addedCode h depths index j hj).1.mono (List.subset_append_right _ _) (List.Subset.refl _)
  · exact (Instr.staysIn_map _ _ _ i).mpr (hi.mono (List.subset_append_left _ _) (List.Subset.refl _))

/-- The places in the frame that a move reads and writes are in some areas. -/
structure Move.StaysIn (spills : List Area) (m : Move) : Prop where
  dst : ∀ o, m.dst = .frame o → ∃ area ∈ spills, (Area.ofSize o (wordBytes * m.lanes)).Within area
  source : ∀ o, m.source = .frame o → ∃ area ∈ spills, (Area.ofSize o (wordBytes * m.lanes)).Within area

theorem Move.StaysIn.code {m : Move} (h : m.StaysIn spills) (via : Reg) (depths : List Nat) (index : Nat) :
  ∀ i ∈ m.code via, i.StaysIn spills depths index ∧ i.ReadsIn spills
  := by
  have hwords : wordBytes * m.words ≤ wordBytes * m.lanes := Nat.mul_le_mul_left wordBytes (Nat.le_max_right 1 _)
  have hword : wordBytes ≤ wordBytes * m.lanes := Nat.le_mul_of_pos_right wordBytes m.lanes_pos
  have hstays : ∀ {o size : Nat}, (∃ area ∈ spills, (Area.ofSize o (wordBytes * m.lanes)).Within area) →
      size ≤ wordBytes * m.lanes → (Address.frame o : Address Reg).StaysIn spills depths index size := by
    intro o size hin hle
    have hlanes : (Address.frame o : Address Reg).StaysIn spills depths index (wordBytes * m.lanes) := hin
    exact hlanes.size_le hle
  obtain ⟨dst, source, words⟩ := m
  cases dst with
  | reg r =>
    cases source with
    | frame o =>
      have ho := h.source o rfl
      simp only [Move.code]
      split
      · exact List.forall_mem_singleton.mpr ⟨Instr.staysIn_loadLanes.mpr (hstays ho hwords), nofun⟩
      · exact List.forall_mem_singleton.mpr ⟨Instr.staysIn_load.mpr (hstays ho hword), nofun⟩
    | reg | imm | float => exact List.forall_mem_singleton.mpr ⟨nofun, List.forall_mem_singleton.mpr trivial⟩
  | frame target =>
    have htarget := h.dst target rfl
    cases source with
    | frame o =>
      have ho := h.source o rfl
      simp only [Move.code]
      split
      · exact List.forall_mem_singleton.mpr
          ⟨Instr.staysIn_copy.mpr ⟨hstays htarget hwords, hstays ho hwords⟩, nofun⟩
      · refine List.forall_mem_cons.mpr ⟨⟨Instr.staysIn_load.mpr (hstays ho hword), nofun⟩, ?_⟩
        exact List.forall_mem_singleton.mpr
          ⟨Instr.staysIn_store.mpr (hstays htarget hword), List.forall_mem_singleton.mpr trivial⟩
    | reg | imm | float =>
      simp only [Move.code]
      split
      · exact List.forall_mem_singleton.mpr
          ⟨Instr.staysIn_storeLanes.mpr (hstays htarget hwords), List.forall_mem_singleton.mpr trivial⟩
      · exact List.forall_mem_singleton.mpr
          ⟨Instr.staysIn_store.mpr (hstays htarget hword), List.forall_mem_singleton.mpr trivial⟩

theorem Move.StaysIn.redirect {m : Move} (h : m.StaysIn spills) (ℓ : Location) (r : Reg) :
  (m.redirect ℓ r).StaysIn spills
  := by
  unfold Move.redirect
  split
  · exact ⟨h.dst, nofun⟩
  · exact h

/-- Parking the value that a move overwrites reads the destination of the move. -/
theorem Move.StaysIn.parked {m : Move} (h : m.StaysIn spills) (park : Reg) :
  (m.parked park).StaysIn spills
  := by
  refine ⟨nofun, fun o ho => h.dst o ?_⟩
  exact Location.operand_inj ho

/--
The code of a block stays in areas of the frame: that of each line in those that are made for it, in those of the
slots that it names and in the places of registers, and the code behind the lines in the places of registers.
-/
structure Block.StaysIn (f : Flow.Function) (offsets : List Nat) (spills : List Area) (b : Block)
    (made : List Area) : Prop where
  lines : ∃ (pieces : List (List (Instr Reg) × List Area)) (rest : List (Instr Reg)),
    b.body = pieces.flatMap (·.1) ++ rest ∧ made = pieces.flatMap (·.2)
      ∧ LinesStayIn f offsets spills (f.block b.id).body pieces
      ∧ ∀ i ∈ rest, ∀ index, i.StaysIn spills [] index
  operands : ∀ i ∈ b.body, i.ReadsIn spills
  control : ∀ c ∈ b.control, ∀ x ∈ c.sources, x.StaysIn spills

/-- The code of lines stays where the lines do, and in the places of registers. -/
theorem LinesStayIn.instrs
    {f : Flow.Function} {offsets : List Nat} {lines : List Line} {pieces : List (List (Instr VReg) × List Area)}
    (h : LinesStayIn f offsets [] lines pieces)
    (hplaces : ∀ i ∈ pieces.flatMap (·.1), ∀ v ∈ i.uses ++ i.def?.toList, a.KeepsIn spills v) :
  LinesStayIn f offsets spills lines (pieces.map fun piece => (piece.1.flatMap a.instr, piece.2))
  := by
  induction h with
  | nil => exact .nil
  | @cons line piece lines pieces hline hlines ih =>
    rw [List.flatMap_cons, List.forall_mem_append] at hplaces
    refine .cons ⟨hline.1, fun index hindex j hj => ?_⟩ (ih hplaces.2)
    obtain ⟨i, hi, hj⟩ := List.mem_flatMap.mp hj
    have hstays := hline.2 index hindex i hi
    rw [List.append_nil] at hstays
    exact staysIn_instr (hplaces.1 i hi) hstays j hj

end

/-! ## Functions -/

section

variable {p : Program} {target : Target}

end

/-! ## A value that takes no words -/

end FormCompiler.Machine
