import FormCompiler.Proofs.Machine.Position
import FormCompiler.Proofs.Machine.Memory

/-!
# Instructions on other registers

An instruction does the same on virtual registers and on registers of the target if the registers
that it reads have the same contents, as far as it looks at them. How far it looks is what
`Instr.Fits` limits: a vector instruction looks at no more lanes than its registers have, and a
callee takes no more words of an argument than there are.
-/

namespace FormCompiler.Machine

open FormCompiler.Flow

/-- Two registers have the same first lanes. -/
def SameLanes (count : Nat) (x y : Lanes) : Prop := ∀ i < count, x i = y i

theorem SameLanes.refl (count : Nat) (x : Lanes) :
  SameLanes count x x
  := fun _ _ => rfl

theorem SameLanes.mono {m n : Nat} {x y : Lanes} (h : SameLanes n x y) (hle : m ≤ n) :
  SameLanes m x y
  := fun i hi => h i (Nat.lt_of_lt_of_le hi hle)

theorem SameLanes.trans {n : Nat} {x y z : Lanes} (h : SameLanes n x y) (h' : SameLanes n y z) :
  SameLanes n x z
  := fun i hi => (h i hi).trans (h' i hi)

/-! ## Code that fits its registers -/

/-- An operand is no word of the frame. -/
def Operand.IsPlain (x : Operand ρ) : Prop := ∀ offset, x ≠ .frame offset

/-- An operand is plain, and if it is a register, it has so many lanes. -/
structure Operand.HasLanes (lanes : ρ → Nat) (count : Nat) (x : Operand ρ) : Prop where
  plain : x.IsPlain
  lanes : ∀ r, x = .reg r → count ≤ lanes r

/-- An instruction looks at no more lanes of a register than it has. -/
def Instr.Fits (W : World) (lanes : VReg → Nat) : Instr VReg → Prop
  | move dst source => source.HasLanes lanes (lanes dst)
  | binary _ _ lhs rhs => lhs.IsPlain ∧ rhs.IsPlain
  | unary _ _ source | convert _ source _ | alloc _ source | store _ source | check source _ =>
    source.IsPlain
  | call callee _ args _ =>
    ∀ i (arg : Operand VReg), args[i]? = some arg → arg.HasLanes lanes (W.argWords callee i)
  | storeLanes _ source width => source.HasLanes lanes width
  | binaryLanes _ _ lhs rhs width => width ≤ lanes lhs ∧ width ≤ lanes rhs
  | load .. | locate .. | copy .. | free _ | loadLanes .. => True

section

variable (W : World) {read : VReg → Reg} {x : VReg → Lanes} {y : Reg → Lanes}

theorem Operand.lanes_map
    (m m' : Memory) {source : Operand VReg} (hplain : source.IsPlain) {count : Nat}
    (h : ∀ v ∈ source.reg?.toList, SameLanes count (x v) (y (read v))) :
  SameLanes count (source.lanes W m x) ((source.map read).lanes W m' y)
  := by
  cases source with
  | reg v => exact h v (by simp [reg?])
  | imm n | float bits => exact SameLanes.refl _ _
  | frame offset => exact absurd rfl (hplain offset)

theorem Operand.HasLanes.lanes_map
    {lanes : VReg → Nat} {count : Nat} {source : Operand VReg} (h : source.HasLanes lanes count)
    (m m' : Memory) (hread : ∀ v ∈ source.reg?.toList, SameLanes (lanes v) (x v) (y (read v))) :
  SameLanes count (source.lanes W m x) ((source.map read).lanes W m' y)
  := by
  apply Operand.lanes_map W m m' h.plain
  intro v hv
  apply (hread v hv).mono
  apply h.lanes v
  cases source <;> simp_all [Operand.reg?]

theorem Operand.word_map
    (m m' : Memory) {source : Operand VReg} (hplain : source.IsPlain)
    (h : ∀ v ∈ source.reg?.toList, SameLanes 1 (x v) (y (read v))) :
  source.word W m x = (source.map read).word W m' y
  := Operand.lanes_map W m m' hplain h 0 Nat.one_pos

theorem Address.place_map
    {address : Address VReg} (h : ∀ v ∈ address.reg?.toList, SameLanes 1 (x v) (y (read v))) :
  address.place W x = (address.map read).place W y
  := by
  cases address with
  | frame offset => rfl
  | element base index scale =>
    simp only [place, map]
    rw [h index (by simp [reg?]) 0 Nat.one_pos]
  | based base offset =>
    simp only [place, map]
    rw [h base (by simp [reg?]) 0 Nat.one_pos]
  | symbol name => rfl

end

/-! ## Traces -/

/-- What has been seen when something ended. -/
def traceOf (trace : α → List Event) : Except (List Event) α → List Event
  | .error t => t
  | .ok s => trace s

theorem prefix_trace_log (hidden : Nat → Bool) (s : Store) (events : List Event) :
  s.trace <+: (s.log hidden events).trace
  := List.prefix_append _ _

theorem prefix_trace_act (W : World) (hidden : Nat → Bool) (regs : ρ → Lanes) (s : Store) (i : Instr ρ) :
  s.trace <+: traceOf (·.2.trace) (i.act W hidden regs s)
  := by
  cases i with
  | check index length =>
    simp only [Instr.act]
    split <;> exact prefix_trace_log _ _ _
  | binary op dst lhs rhs | binaryLanes op dst lhs rhs width =>
    simp only [Instr.act]
    split <;> exact List.prefix_rfl
  | copy dst source words =>
    exact (prefix_trace_log _ _ _).trans (prefix_trace_log _ _ _)
  | move | unary | convert | locate => exact List.prefix_rfl
  | _ => exact prefix_trace_log _ _ _

/-! ## One instruction -/

/--
What an action on virtual registers and one on registers of the target have in common: both trap with
the same trace, or both end with the same trace, with memories that match outside of the area and
with values that are the same as far as wanted. The second one leaves the area as it is.
-/
def Accords (area : Area) (t : Store) (count : Nat) :
    Except (List Event) (Lanes × Store) → Except (List Event) (Lanes × Store) → Prop
  | .error trace, r => r = .error trace
  | .ok (x, s'), r =>
    ∃ y t', r = .ok (y, t') ∧ SameLanes count x y ∧ s'.Matches area t'
      ∧ ∀ a, area.Holds a → t'.memory a = t.memory a

/-- The callees of a world do not write to an area. -/
def World.Spares (W : World) (area : Area) : Prop :=
  ∀ trace a, area.Holds a → (W.reply trace).writes a = none

/-- The number of lanes that are wanted of what an instruction writes. -/
def Instr.wanted (lanes : VReg → Nat) (i : Instr VReg) : Nat :=
  match i.def? with
  | some dst => lanes dst
  | none => 0

section

variable {W : World} {area : Area} {lanes : VReg → Nat} {read : VReg → Reg}
  {arg : Operand VReg → Operand Reg} {write : VReg → Reg} {x : VReg → Lanes} {y : Reg → Lanes}
  {s t : Store}

theorem accords_of_log
    (h : s.Matches area t) (event : Event) (havoid : event.Avoids area) {value value' : Lanes}
    {count : Nat} (hvalue : SameLanes count value value') :
  Accords area t count (.ok (value, s.log (fun _ => false) [event]))
    (.ok (value', t.log area.hides [event]))
  := ⟨value', _, rfl, hvalue, h.log _ (by simpa using havoid), fun _ _ => rfl⟩

theorem accords_of_read
    (h : s.Matches area t) {a count wanted : Nat}
    (havoid : ∀ e ∈ (s.read (fun _ => false) a count).2.trace, e.Avoids area) :
  Accords area t wanted
    (.ok (lanesOf (s.read (fun _ => false) a count).1, (s.read (fun _ => false) a count).2))
    (.ok (lanesOf (t.read area.hides a count).1, (t.read area.hides a count).2))
  := by
  obtain ⟨hwords, hmatches⟩ := h.read fun e he => havoid e (by
    rw [Store.read, Store.log_false]
    exact List.mem_append_right _ he)
  refine ⟨_, _, rfl, ?_, hmatches, fun _ _ => rfl⟩
  rw [hwords]
  exact SameLanes.refl _ _

theorem accords_of_write
    (h : s.Matches area t) {a : Nat} {ws : List UInt64}
    (havoid : ∀ e ∈ (s.write (fun _ => false) a ws).trace, e.Avoids area) :
  Accords area t 0 (.ok (Lanes.none, s.write (fun _ => false) a ws))
    (.ok (Lanes.none, t.write area.hides a ws))
  := by
  have hevents : ∀ e ∈ storeEvents a ws, e.Avoids area := by
    intro e he
    apply havoid e
    change e ∈ (s.log (fun _ => false) (storeEvents a ws)).trace
    rw [Store.log_false]
    exact List.mem_append_right _ he
  exact ⟨_, _, rfl, SameLanes.refl _ _, h.write hevents, fun a ha => Store.write_of_avoids hevents ha⟩

theorem mapM_congr {f g : α → Option β} {l : List α} (h : ∀ i ∈ l, f i = g i) :
  l.mapM f = l.mapM g
  := by
  induction l with
  | nil => rfl
  | cons i l ih =>
    rw [List.mapM_cons, List.mapM_cons, h i (by simp), ih fun j hj => h j (by simp [hj])]

/-- The arguments of a call have the same values. -/
theorem argValues_map
    {callee : String} {args : List (Operand VReg)}
    (h : ∀ i operand, args[i]? = some operand → SameLanes (W.argWords callee i)
      (operand.lanes W s.memory x) ((arg operand).lanes W t.memory y)) :
  argValues W s.memory x callee args = argValues W t.memory y callee (args.map arg)
  := by
  unfold argValues
  rw [List.zipIdx_map, List.map_map]
  apply List.map_congr_left
  rintro ⟨operand, i⟩ hmem
  apply List.map_congr_left
  intro j hj
  exact h i operand (List.mk_mem_zipIdx_iff_getElem?.mp hmem) j (List.mem_range.mp hj)

theorem accords_act
    {i : Instr VReg} (hspares : W.Spares area) (hpos : ∀ v, 0 < lanes v) (hfits : i.Fits W lanes)
    (hmatches : s.Matches area t)
    (hread : ∀ v ∈ i.operandUses, SameLanes (lanes v) (x v) (y (read v)))
    (hargs : ∀ v, .reg v ∈ i.args →
      SameLanes (lanes v) (x v) ((arg (.reg v)).lanes W t.memory y))
    (harg : ∀ operand : Operand VReg, operand.reg? = none → arg operand = operand.map read)
    (havoid : ∀ e ∈ traceOf (·.2.trace) (i.act W (fun _ => false) x s), e.Avoids area) :
  Accords area t (i.wanted lanes) (i.act W (fun _ => false) x s)
    ((i.map read arg write).act W area.hides y t)
  := by
  have hone : ∀ v ∈ i.operandUses, SameLanes 1 (x v) (y (read v)) :=
    fun v hv => (hread v hv).mono (hpos v)
  cases i with
  | move dst source =>
    have hlanes : source.HasLanes lanes (lanes dst) := hfits
    exact ⟨_, t, rfl, hlanes.lanes_map W _ _ hread, hmatches, fun _ _ => rfl⟩
  | binary op dst lhs rhs =>
    obtain ⟨hlhs, hrhs⟩ := hfits
    simp only [Instr.act, Instr.map]
    rw [← Operand.word_map W s.memory t.memory hlhs fun v hv => hone v (List.mem_append_left _ hv),
      ← Operand.word_map W s.memory t.memory hrhs fun v hv => hone v (List.mem_append_right _ hv)]
    split
    · exact ⟨_, t, rfl, SameLanes.refl _ _, hmatches, fun _ _ => rfl⟩
    · rw [hmatches.trace]
      rfl
  | unary op dst source | convert dst source type =>
    have hplain : source.IsPlain := hfits
    refine ⟨_, t, rfl, ?_, hmatches, fun _ _ => rfl⟩
    rw [Operand.word_map W s.memory t.memory hplain hone]
    exact SameLanes.refl _ _
  | store address source =>
    have hplain : source.IsPlain := hfits
    simp only [Instr.act, Instr.map] at havoid ⊢
    rw [← Address.place_map W fun v hv => hone v (List.mem_append_left _ hv),
      ← Operand.word_map W s.memory t.memory hplain
        fun v hv => hone v (List.mem_append_right _ hv)]
    exact accords_of_write hmatches havoid
  | locate dst address =>
    refine ⟨_, t, rfl, ?_, hmatches, fun _ _ => rfl⟩
    rw [Address.place_map W hone]
    exact SameLanes.refl _ _
  | copy dst source words =>
    simp only [Instr.act, Instr.map] at havoid ⊢
    rw [← Address.place_map W fun v hv => hone v (List.mem_append_left _ hv),
      ← Address.place_map W fun v hv => hone v (List.mem_append_right _ hv)]
    have hreads : ∀ e ∈ (s.read (fun _ => false) (source.place W x) words).2.trace,
        e.Avoids area :=
      fun e he => havoid e ((prefix_trace_log _ _ _).subset he)
    obtain ⟨_, _, hread, -, hmatches', -⟩ := @accords_of_read area s t hmatches _ _ 0 hreads
    obtain ⟨hwords, -⟩ := hmatches.read fun e he => hreads e (by
      rw [Store.read, Store.log_false]
      exact List.mem_append_right _ he)
    obtain ⟨rfl, rfl⟩ := Prod.mk.inj (Except.ok.inj hread)
    rw [← hwords]
    exact accords_of_write hmatches' havoid
  | check index length =>
    have hplain : index.IsPlain := hfits
    simp only [Instr.act, Instr.map]
    rw [← Operand.word_map W s.memory t.memory hplain hone]
    have hlog := hmatches.log [.check (index.word W s.memory x) length] (by
      simp [Event.Avoids])
    split
    · exact ⟨_, _, rfl, SameLanes.refl _ _, hlog, fun _ _ => rfl⟩
    · rw [hlog.trace]
      rfl
  | call callee convention args dst =>
    have hvalues : argValues W s.memory x callee args
        = argValues W t.memory y callee (args.map arg) := by
      apply argValues_map
      intro i operand hget
      have hlanes : operand.HasLanes lanes (W.argWords callee i) := hfits i operand hget
      cases operand with
      | reg v => exact (hargs v (List.mem_of_getElem? hget)).mono (hlanes.lanes v rfl)
      | imm n =>
        rw [harg (.imm n) rfl]
        exact SameLanes.refl _ _
      | float bits =>
        rw [harg (.float bits) rfl]
        exact SameLanes.refl _ _
      | frame offset => exact absurd rfl (hlanes.plain offset)
    simp only [Instr.act, Instr.map]
    rw [← hvalues]
    have hlog := hmatches.log [.call callee convention (argValues W s.memory x callee args)] (by
      simp [Event.Avoids])
    rw [← hlog.trace]
    refine ⟨_, _, rfl, SameLanes.refl _ _, ⟨?_, rfl⟩, ?_⟩
    · intro a ha
      simp only [Memory.overwrite]
      rw [hlog.memory a ha]
    · intro a ha
      simp only [Memory.overwrite]
      rw [hspares _ a ha]
      rfl
  | alloc dst size =>
    have hplain : size.IsPlain := hfits
    simp only [Instr.act, Instr.map]
    rw [← Operand.word_map W s.memory t.memory hplain hone]
    have hlog := hmatches.log [.alloc (size.word W s.memory x)] (by
      simp [Event.Avoids])
    rw [hlog.trace]
    exact ⟨_, _, rfl, SameLanes.refl _ _, hlog, fun _ _ => rfl⟩
  | free pointer =>
    simp only [Instr.act, Instr.map]
    rw [hone pointer (by simp [Instr.operandUses]) 0 Nat.one_pos]
    exact accords_of_log hmatches (.free (y (read pointer) 0)) trivial (SameLanes.refl _ _)
  | load dst address | loadLanes dst address width =>
    simp only [Instr.act, Instr.map] at havoid ⊢
    rw [← Address.place_map W hone]
    exact accords_of_read hmatches havoid
  | storeLanes address source width =>
    have hwidth : source.HasLanes lanes width := hfits
    have hsame := hwidth.lanes_map W s.memory t.memory
      fun v hv => hread v (List.mem_append_right _ hv)
    have hwords : (List.range width).map (source.lanes W s.memory x)
        = (List.range width).map ((source.map read).lanes W t.memory y) :=
      List.map_congr_left fun i hi => hsame i (List.mem_range.mp hi)
    simp only [Instr.act, Instr.map] at havoid ⊢
    rw [← Address.place_map W fun v hv => hone v (List.mem_append_left _ hv), ← hwords]
    exact accords_of_write hmatches havoid
  | binaryLanes op dst lhs rhs width =>
    obtain ⟨hlhs, hrhs⟩ := hfits
    have hlanes : (List.range width).mapM (fun i => W.binary op (x lhs i) (x rhs i))
        = (List.range width).mapM fun i => W.binary op (y (read lhs) i) (y (read rhs) i) := by
      apply mapM_congr
      intro i hi
      have hlt := List.mem_range.mp hi
      rw [hread lhs (by simp [Instr.operandUses]) i (by omega),
        hread rhs (by simp [Instr.operandUses]) i (by omega)]
    simp only [Instr.act, Instr.map]
    rw [← hlanes]
    split
    · exact ⟨_, t, rfl, SameLanes.refl _ _, hmatches, fun _ _ => rfl⟩
    · rw [hmatches.trace]
      rfl

end

end FormCompiler.Machine
