import FormCompiler.Proofs.Optimize.Folded

/-!
# The weight of a function

How much constant folding can still change in a function. A load may become a copy and an operation a
constant; a copy may lose its reads; parameters, branches and jumps may go. The weight counts these, so
that each of the ten rewrites that changes something makes the function lighter, apart from the removal
of unreachable blocks, which only never makes it heavier (`Lightens`, `round_lightens`).
-/

namespace FormCompiler.Flow

open Verify (IsSite IsDefinedAt)

/-! ## Sums over lists -/

theorem sum_map_add_le {α : Type} {items : List α} {a b c : α → Nat} (h : ∀ x ∈ items, a x + b x ≤ c x) :
  (items.map a).sum + (items.map b).sum ≤ (items.map c).sum
  := by
  rw [← List.sum_map_add]
  exact List.sum_le_sum h

theorem sum_map_modify {α : Type} {items : List α} (w : α → Nat) (change : α → α) {k : Nat} {x : α}
    (hx : items[k]? = some x) :
  ((items.modify k change).map w).sum + w x = (items.map w).sum + w (change x)
  := by
  induction items generalizing k with
  | nil => cases hx
  | cons y items ih =>
    cases k with
    | zero =>
      obtain rfl : y = x := by simpa using hx
      simp only [List.modify_zero_cons, List.map_cons, List.sum_cons]
      omega
    | succ k =>
      have hrest := ih (k := k) (by simpa using hx)
      simp only [List.modify_succ_cons, List.map_cons, List.sum_cons]
      omega

/-! ## Weights -/

/-- The weight of an instruction, given which variables are read. -/
def Instr.weight (isRead : VarId → Bool) : Instr → Nat
  | .load _ _ | .set _ (.binary _ _ _) | .set _ (.unary _ _) | .set _ (.cast _) => 3
  | .set dst (.copy _) => if isRead dst then 2 else 1
  | _ => 1

/-- The weight of a terminator. -/
def Terminator.weight : Terminator → Nat
  | .branch _ _ _ => 2
  | .jump _ _ => 1
  | .ret _ | .unreachable => 0

/-- The weight of a block. -/
def Block.weight (isRead : VarId → Bool) (b : Block) : Nat :=
  (b.instrs.map (Instr.weight isRead)).sum + b.params.length + b.terminator.weight

namespace Function

/-- Whether a variable is read. -/
def isRead (f : Function) (v : VarId) : Bool := 0 < f.useCount v

/-- The weight of a function, if certain variables count as read. -/
def weightBy (f : Function) (isRead : VarId → Bool) : Nat := (f.blocks.map (Block.weight isRead)).sum

/-- The weight of a function. -/
def weight (f : Function) : Nat := f.weightBy f.isRead

end Function

section

variable {f g : Function} {isRead isRead' : VarId → Bool} {v : VarId} {id : BlockId}

/-- Control may come to every block. -/
def Function.AllReached (f : Function) : Prop := ∀ id < f.blocks.length, id ∈ f.reversePostorder

theorem Function.AllReached.isDefinedAt (h : f.AllReached) (hf : f.IsSsa) {b : Block} (hb : b ∈ f.blocks)
    (hv : v ∈ b.uses) :
  ∃ id ∈ f.reversePostorder, ∃ j, IsDefinedAt f id j v
  := by
  obtain ⟨id, hid⟩ := List.getElem?_of_mem hb
  have hreached := h id (List.getElem?_eq_some_iff.mp hid).1
  rcases List.mem_append.mp hv with hv | hv
  · obtain ⟨i, hi, hv⟩ := List.mem_flatMap.mp hv
    obtain ⟨j, hj⟩ := List.getElem?_of_mem hi
    exact ⟨id, hreached, j, hf.isDefinedAt_of_mem_uses hreached hid hj hv⟩
  · exact ⟨id, hreached, _, hf.isDefinedAt_of_mem_terminator hreached hid hv⟩

theorem Function.isRead_iff :
  f.isRead v = true ↔ ∃ b ∈ f.blocks, v ∈ b.uses
  := by
  rw [Function.isRead, decide_eq_true_eq, Nat.pos_iff_ne_zero, ne_eq, useCount_eq_zero_iff]
  push Not
  rfl

theorem Instr.weight_mono (h : ∀ v, isRead' v = true → isRead v = true) (i : Instr) :
  i.weight isRead' ≤ i.weight isRead
  := by
  unfold Instr.weight
  split
  · exact le_rfl
  · exact le_rfl
  · exact le_rfl
  · exact le_rfl
  · next dst source =>
    cases hdst : isRead' dst with
    | true => rw [h dst hdst]
    | false => cases isRead dst <;> simp
  · exact le_rfl

theorem Instr.weight_le (isRead : VarId → Bool) (i : Instr) :
  i.weight isRead ≤ 3
  := by
  unfold Instr.weight
  split <;> try omega
  split <;> omega

theorem Instr.weight_pos (isRead : VarId → Bool) (i : Instr) :
  1 ≤ i.weight isRead
  := by
  unfold Instr.weight
  split <;> try omega
  split <;> omega

theorem Terminator.weight_le (t : Terminator) :
  t.weight ≤ 2
  := by
  cases t <;> simp [Terminator.weight]

theorem Block.weight_mono (h : ∀ v, isRead' v = true → isRead v = true) (b : Block) :
  b.weight isRead' ≤ b.weight isRead
  := by
  have hinstrs : (b.instrs.map (Instr.weight isRead')).sum ≤ (b.instrs.map (Instr.weight isRead)).sum :=
    List.sum_le_sum fun i _ => Instr.weight_mono h i
  simp only [Block.weight]
  omega

theorem Function.weightBy_mono (h : ∀ v, isRead' v = true → isRead v = true) (f : Function) :
  f.weightBy isRead' ≤ f.weightBy isRead
  := List.sum_le_sum fun b _ => b.weight_mono h

/-- The bound on the number of rounds is more than the weight. -/
theorem Function.weight_lt_roundLimit (f : Function) :
  f.weight < Fold.roundLimit f
  := by
  have hblock : ∀ b ∈ f.blocks, b.weight f.isRead
      ≤ 3 * b.body.length + b.params.length + 2 := by
    intro b _
    have hinstrs : (b.instrs.map (Instr.weight f.isRead)).sum ≤ b.body.length * 3 := by
      have hsum := List.sum_le_card_nsmul (b.instrs.map (Instr.weight f.isRead)) 3 (by
        simp only [List.mem_map, forall_exists_index, and_imp, forall_apply_eq_imp_iff₂]
        exact fun i _ => i.weight_le f.isRead)
      simpa [Block.instrs] using hsum
    have hterminator := b.terminator.weight_le
    rw [Block.weight]
    omega
  have hsum := List.sum_le_sum hblock
  have hsplit : ∀ blocks : List Block,
      (blocks.map fun b => 3 * b.body.length + b.params.length + 2).sum
        = 3 * (blocks.map (·.body.length)).sum + (blocks.map (·.params.length)).sum
          + 2 * blocks.length := by
    intro blocks
    induction blocks with
    | nil => rfl
    | cons b blocks ih =>
      simp only [List.map_cons, List.sum_cons, List.length_cons, ih]
      omega
  rw [hsplit] at hsum
  simp only [Function.weight, Function.weightBy, Fold.roundLimit, Function.instrCount, total_eq_sum]
  omega

end

/-! ## Passes that make functions lighter -/

/-- A pass changes nothing if it counts no changes, and else it makes the function lighter. -/
structure Pass.Lightens (weight : Function → Nat) (pass : Pass) (f : Function) : Prop where
  same : (pass f).1 = 0 → (pass f).2 = f
  lighter : (pass f).1 ≠ 0 → weight (pass f).2 < weight f

namespace Pass.Lightens

variable {weight : Function → Nat} {pass first second : Pass} {f : Function}

theorem le (h : pass.Lightens weight f) :
  weight (pass f).2 ≤ weight f
  := by
  by_cases hcount : (pass f).1 = 0
  · rw [h.same hcount]
  · exact (h.lighter hcount).le

/-- Each change may take its share of the weight. -/
theorem of_add_le (hsame : (pass f).1 = 0 → (pass f).2 = f)
    (h : weight (pass f).2 + (pass f).1 ≤ weight f) :
  pass.Lightens weight f
  := ⟨hsame, fun hcount => by omega⟩

theorem andThen (h : first.Lightens weight f) (h' : second.Lightens weight (first f).2) :
  (first.andThen second).Lightens weight f
  := by
  constructor
  · intro hcount
    obtain ⟨hfirst, hsecond⟩ : (first f).1 = 0 ∧ (second (first f).2).1 = 0 :=
      Nat.add_eq_zero_iff.mp hcount
    exact (h'.same hsecond).trans (h.same hfirst)
  · intro hcount
    change weight (second (first f).2).2 < weight f
    by_cases hfirst : (first f).1 = 0
    · have hsecond : (second (first f).2).1 ≠ 0 := fun hzero =>
        hcount (Nat.add_eq_zero_iff.mpr ⟨hfirst, hzero⟩)
      exact (h'.lighter hsecond).trans_le h.le
    · exact h'.le.trans_lt (h.lighter hfirst)

theorem nil (weight : Function → Nat) (f : Function) :
  (sequence []).Lightens weight f
  := ⟨fun _ => rfl, fun hcount => absurd rfl hcount⟩

theorem cons {passes : List Pass} (h : pass.Lightens weight f)
    (h' : (sequence passes).Lightens weight (pass f).2) :
  (sequence (pass :: passes)).Lightens weight f
  := h.andThen h'

theorem repeated {P : Function → Prop} (hkept : ∀ g, P g → P (pass g).2)
    (h : ∀ g, P g → pass.Lightens weight g) (bound : Nat) (hf : P f) :
  (pass.repeated bound).Lightens weight f
  := by
  induction bound generalizing f with
  | zero => exact ⟨fun _ => rfl, fun hcount => absurd rfl hcount⟩
  | succ bound ih =>
    have hnext := ih (hkept f hf)
    have hunfold : pass.repeated (bound + 1) f = if (pass f).1 = 0 then (0, (pass f).2)
        else ((pass f).1 + (pass.repeated bound (pass f).2).1, (pass.repeated bound (pass f).2).2) := rfl
    by_cases hzero : (pass f).1 = 0
    · rw [if_pos hzero] at hunfold
      exact ⟨fun _ => by rw [hunfold, (h f hf).same hzero], fun hcount => absurd (by rw [hunfold]) hcount⟩
    · rw [if_neg hzero] at hunfold
      refine ⟨fun hcount => ?_, fun _ => ?_⟩
      · rw [hunfold] at hcount
        exact absurd (Nat.add_eq_zero_iff.mp hcount).1 hzero
      · rw [hunfold]
        exact hnext.le.trans_lt ((h f hf).lighter hzero)

end Pass.Lightens

/-! ## Instructions -/

section

variable {f : Function} {isRead : VarId → Bool}
variable {replace : Instr → Option Instr} {rename : VarId → VarId}

/-- Blocks are changed one by one, and no new variables are read. -/
theorem Pass.lightens_onBlocks {change : Block → Nat × Block}
    (hsame : ∀ b ∈ f.blocks, (change b).1 = 0 → (change b).2 = b)
    (huses : ∀ b ∈ f.blocks, (change b).2.uses ⊆ b.uses)
    (hweight : ∀ isRead, ∀ b ∈ f.blocks, (change b).2.weight isRead + (change b).1 ≤ b.weight isRead) :
  (onBlocks change).Lightens Function.weight f
  := by
  have hcount : (onBlocks change f).1 = (f.blocks.map fun b => (change b).1).sum := by
    simp only [onBlocks, total_eq_sum, List.map_map]
    rfl
  have hblocks : (onBlocks change f).2.blocks = f.blocks.map fun b => (change b).2 := by
    simp only [onBlocks, List.map_map]
    rfl
  refine .of_add_le (fun hzero => ?_) ?_
  · rw [hcount, List.sum_eq_zero_iff] at hzero
    have hmap : f.blocks.map (fun b => (change b).2) = f.blocks :=
      (List.map_congr_left fun b hb => hsame b hb (hzero _ (List.mem_map_of_mem hb))).trans (List.map_id _)
    change { f with blocks := (onBlocks change f).2.blocks } = f
    rw [hblocks, hmap]
  · have hread : ∀ v, (onBlocks change f).2.isRead v = true → f.isRead v = true := by
      simp only [Function.isRead_iff, hblocks, List.mem_map, exists_exists_and_eq_and]
      rintro v ⟨b, hb, hv⟩
      exact ⟨b, hb, huses b hb hv⟩
    have hmono := Function.weightBy_mono hread (onBlocks change f).2
    have hsum := sum_map_add_le (hweight f.isRead)
    have hby : (onBlocks change f).2.weightBy f.isRead
        = (f.blocks.map fun b => (change b).2.weight f.isRead).sum := by
      rw [Function.weightBy, hblocks, List.map_map]
      rfl
    rw [hcount, Function.weight, Function.weight]
    rw [hby] at hmono
    exact (Nat.add_le_add_right hmono _).trans hsum

/-- What stands for an instruction makes it lighter. -/
theorem sum_weight_replaced (isRead : VarId → Bool)
    (h : ∀ i new, replace i = some new → new.weight isRead + 1 ≤ i.weight isRead) (instrs : List Instr) :
  ((instrs.map fun i => (replace i).getD i).map (Instr.weight isRead)).sum
      + (instrs.filterMap replace).length
    ≤ (instrs.map (Instr.weight isRead)).sum
  := by
  induction instrs with
  | nil => simp
  | cons i instrs ih =>
    cases hnew : replace i with
    | none =>
      simp only [List.map_cons, hnew, Option.getD_none, List.sum_cons, List.filterMap_cons_none]
      omega
    | some new =>
      have hlighter := h i new hnew
      simp only [List.map_cons, hnew, Option.getD_some, List.sum_cons,
        List.filterMap_cons_some hnew, List.length_cons]
      omega

theorem instrs_mapInstrs (b : Block) (change : Instr → Instr) :
  (b.mapInstrs change).instrs = b.instrs.map change
  := by
  simp [Block.mapInstrs, Block.instrs]

theorem Pass.lightens_replaceInstrs
    (h : ∀ i new, replace i = some new → new.uses ⊆ i.uses
      ∧ ∀ isRead, new.weight isRead + 1 ≤ i.weight isRead) :
  (replaceInstrs replace).Lightens Function.weight f
  := by
  refine Pass.lightens_onBlocks (fun b _ hzero => ?_) (fun b _ => ?_) fun isRead b _ => ?_
  · have hnone : ∀ line ∈ b.body, replace line.instr = none := by
      intro line hline
      have hnil : b.instrs.filterMap replace = [] := List.length_eq_zero_iff.mp hzero
      exact List.filterMap_eq_nil_iff.mp hnil _ (List.mem_map_of_mem hline)
    have hbody : b.body.map (fun line => { line with instr := (replace line.instr).getD line.instr })
        = b.body := by
      refine (List.map_congr_left fun line hline => ?_).trans (List.map_id _)
      rw [hnone line hline]
      rfl
    change { b with body := b.body.map fun line =>
      { line with instr := (replace line.instr).getD line.instr } } = b
    rw [hbody]
  · intro v hv
    rw [Block.uses, instrs_mapInstrs, List.mem_append, List.mem_flatMap] at hv
    rw [Block.uses, List.mem_append, List.mem_flatMap]
    refine hv.imp_left ?_
    rintro ⟨_, hmem, hv⟩
    obtain ⟨i, hi, rfl⟩ := List.mem_map.mp hmem
    refine ⟨i, hi, ?_⟩
    cases hnew : replace i with
    | none => simpa [hnew] using hv
    | some new =>
      rw [hnew] at hv
      exact (h i new hnew).1 hv
  · have hsum := sum_weight_replaced isRead (fun i new hnew => (h i new hnew).2 isRead) b.instrs
    simp only [Block.weight, instrs_mapInstrs]
    change _ + b.params.length + b.terminator.weight + _ ≤ _
    omega

theorem sum_weight_kept (isRead : VarId → Bool) (keep : Instr → Bool) (body : List Line) :
  (((body.filter fun line => keep line.instr).map (·.instr)).map (Instr.weight isRead)).sum
      + (body.length - (body.filter fun line => keep line.instr).length)
    ≤ ((body.map (·.instr)).map (Instr.weight isRead)).sum
  := by
  induction body with
  | nil => simp
  | cons line body ih =>
    have hle := List.length_filter_le (fun line => keep line.instr) body
    have hpos := line.instr.weight_pos isRead
    rw [List.filter_cons]
    split <;> simp only [List.map_cons, List.sum_cons, List.length_cons] <;> omega

theorem Pass.lightens_keepInstrs (keep : Instr → Bool) :
  (keepInstrs keep).Lightens Function.weight f
  := by
  refine Pass.lightens_onBlocks (fun b _ hzero => ?_) (fun b _ => ?_) fun isRead b _ => ?_
  · have hle : b.body.length ≤ (b.body.filter fun line => keep line.instr).length :=
      Nat.sub_eq_zero_iff_le.mp hzero
    have hbody := (List.filter_sublist (p := fun line : Line => keep line.instr)).eq_of_length_le hle
    change { b with body := b.body.filter fun line => keep line.instr } = b
    rw [hbody]
  · intro v hv
    rw [Block.uses, List.mem_append, List.mem_flatMap] at hv ⊢
    refine hv.imp_left ?_
    rintro ⟨i, hi, hv⟩
    obtain ⟨line, hline, rfl⟩ := List.mem_map.mp hi
    exact ⟨_, List.mem_map_of_mem (List.mem_of_mem_filter hline), hv⟩
  · have hsum := sum_weight_kept isRead keep b.body
    simp only [Block.weight, Block.instrs]
    change _ + b.params.length + b.terminator.weight + _ ≤ _
    omega

/-! ## Renamed reads -/

theorem weight_mapUses (rename : VarId → VarId) (i : Instr) :
  (i.mapUses rename).weight isRead = i.weight isRead
  := by
  cases i with
  | set dst value => cases value <;> rfl
  | call | load | store | loadGlobal | loadElement | storeElement | boundsCheck | makeArray | makeTuple
  | extract | alloc | free | release | loadLanes | storeLanes | binaryLanes => rfl

theorem Terminator.weight_mapUses (rename : VarId → VarId) (t : Terminator) :
  (t.mapUses rename).weight = t.weight
  := by cases t <;> rfl

theorem Block.weight_mapUses (rename : VarId → VarId) (b : Block) :
  (b.mapUses rename).weight isRead = b.weight isRead
  := by
  have hinstrs : (b.mapUses rename).instrs = b.instrs.map (Instr.mapUses rename) := instrs_mapInstrs b _
  have hmap : (Instr.weight isRead ∘ Instr.mapUses rename) = Instr.weight isRead :=
    funext fun i => FormCompiler.Flow.weight_mapUses rename i
  rw [Block.weight, hinstrs, List.map_map, hmap, Block.weight]
  change _ + b.params.length + (b.terminator.mapUses rename).weight = _
  rw [Terminator.weight_mapUses]

theorem Block.mem_uses_mapUses {b : Block} {v : VarId} :
  v ∈ (b.mapUses rename).uses ↔ ∃ u ∈ b.uses, v = rename u
  := by
  have hinstrs : (b.mapUses rename).instrs = b.instrs.map (Instr.mapUses rename) := instrs_mapInstrs b _
  rw [Block.uses, hinstrs, Block.uses]
  change v ∈ _ ++ (b.terminator.mapUses rename).uses ↔ _
  simp only [Terminator.uses_mapUses, List.flatMap_map, Instr.uses_mapUses, List.mem_append,
    List.mem_flatMap, List.mem_map]
  constructor
  · rintro (⟨i, hi, u, hu, rfl⟩ | ⟨u, hu, rfl⟩)
    · exact ⟨u, .inl ⟨i, hi, hu⟩, rfl⟩
    · exact ⟨u, .inr hu, rfl⟩
  · rintro ⟨u, ⟨i, hi, hu⟩ | hu, rfl⟩
    · exact .inl ⟨i, hi, u, hu, rfl⟩
    · exact .inr ⟨u, hu, rfl⟩

theorem map_eq_self {vars : List VarId} (h : ∀ v ∈ vars, rename v = v) :
  vars.map rename = vars
  := (List.map_congr_left h).trans (List.map_id _)

theorem Instr.mapUses_eq_self {i : Instr} (h : ∀ v ∈ i.uses, rename v = v) :
  i.mapUses rename = i
  := by
  cases i with
  | set dst value =>
    cases value <;> simp_all [Instr.mapUses, Value.mapUses, Instr.uses, Value.uses]
  | call _ _ args | makeArray _ args | makeTuple _ args =>
    simp only [Instr.mapUses, show args.map rename = args from map_eq_self h]
  | load | loadGlobal | loadLanes => rfl
  | store | loadElement | storeElement | boundsCheck | extract | alloc | free | release | storeLanes
  | binaryLanes => simp_all [Instr.mapUses, Instr.uses]

theorem Terminator.mapUses_eq_self {t : Terminator} (h : ∀ v ∈ t.uses, rename v = v) :
  t.mapUses rename = t
  := by
  cases t with
  | ret value => cases value <;> simp_all [Terminator.mapUses, Terminator.uses]
  | jump target args => simp only [Terminator.mapUses, show args.map rename = args from map_eq_self h]
  | branch => simp_all [Terminator.mapUses, Terminator.uses]
  | unreachable => rfl

theorem Block.mapUses_eq_self {b : Block} (h : ∀ v ∈ b.uses, rename v = v) :
  b.mapUses rename = b
  := by
  have hbody : b.body.map (fun line => { line with instr := line.instr.mapUses rename }) = b.body := by
    refine (List.map_congr_left fun line hline => ?_).trans (List.map_id _)
    rw [Instr.mapUses_eq_self fun v hv => h v (List.mem_append_left _
      (List.mem_flatMap.mpr ⟨_, List.mem_map_of_mem hline, hv⟩))]
    rfl
  change ⟨b.params, b.body.map fun line => { line with instr := line.instr.mapUses rename },
    b.terminator.mapUses rename⟩ = b
  rw [hbody, Terminator.mapUses_eq_self fun v hv => h v (List.mem_append_right _ hv)]

theorem Function.replaceUses_eq_self {replaced : List (VarId × VarId)}
    (h : ∀ b ∈ f.blocks, ∀ v ∈ b.uses, replaced.lookup v = none) :
  f.replaceUses replaced = f
  := by
  have hfollow : ∀ v, replaced.lookup v = none → Function.follow replaced replaced.length v = v := by
    intro v hv
    cases replaced with
    | nil => rfl
    | cons => rw [List.length_cons, Function.follow, hv]
  have hblocks : f.blocks.map (Block.mapUses (Function.follow replaced replaced.length)) = f.blocks :=
    (List.map_congr_left fun b hb => Block.mapUses_eq_self fun v hv => hfollow v (h b hb v hv)).trans
      (List.map_id _)
  change { f with blocks := f.blocks.map _ } = f
  rw [hblocks]

end

end FormCompiler.Flow
