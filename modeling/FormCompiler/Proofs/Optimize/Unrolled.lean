import FormCompiler.Proofs.Flow.Compact
import FormCompiler.Proofs.Optimize.Filled
import FormCompiler.Proofs.Optimize.Skipped
import FormCompiler.Proofs.Optimize.TripCount

/-!
# Unrolled loops

Unrolling keeps functions well-formed, and they behave as before if what is said of loops is true: that
they are entered from their preheaders only, and that their counters start, are tested and change as it is
written down. Then the counter tells how many rounds are left, and rounds are copied only as often as
there are rounds.
-/

namespace FormCompiler.Flow

open Verify (IsSite IsDefinedAt Site)

variable {l : LoopInfo}

/-! ## What is said of loops -/

/--
What is said of a loop is true of the function: control gets into the loop from its preheader only, and to
its exit it leaves it; and nothing outside reads what the header defines.
-/
structure LoopInfo.IsTruthful (f : Function) (l : LoopInfo) : Prop where
  wellFormed : l.IsWellFormed f
  entry : f.entry ∉ l.blocks
  exit : l.exit ∉ l.blocks
  own : ∀ id ∉ l.blocks, ∀ v ∈ (f.block id).uses, v ∉ (f.block l.header).defs

theorem LoopInfo.isTruthful_iff {f : Function} :
  l.IsTruthful f ↔ l.IsWellFormed f ∧ f.entry ∉ l.blocks ∧ l.exit ∉ l.blocks
    ∧ ∀ id ∈ List.range f.blocks.length, id ∉ l.blocks → ∀ v ∈ (f.block id).uses,
      v ∉ (f.block l.header).defs
  := by
  constructor
  · rintro ⟨hwell, hentry, hexit, hown⟩
    exact ⟨hwell, hentry, hexit, fun id _ => hown id⟩
  · rintro ⟨hwell, hentry, hexit, hown⟩
    refine ⟨hwell, hentry, hexit, fun id hid v hv => hown id (List.mem_range.mpr ?_) hid v hv⟩
    by_contra hge
    rw [Function.block, List.getD_eq_default _ _ (Nat.le_of_not_lt hge)] at hv
    cases hv

instance (f : Function) (l : LoopInfo) : Decidable (l.IsTruthful f) :=
  decidable_of_iff _ LoopInfo.isTruthful_iff.symm

/--
What is said of the counter of a plain loop is true of all runs: it has its first value when the loop is
entered, the loop goes on if the comparison succeeds, and a round changes it by the step.
-/
structure LoopInfo.CountsTruly (W : World) (f : Function) (l : LoopInfo) : Prop where
  start : ∀ i test body, l.induction = some i → l.IsPlain f test body → ∀ s,
    Gets W f l.preheader (f.block l.preheader).instrs.length s → s.store.slots i.slot = .int i.init
  test : ∀ i test body, l.induction = some i → l.IsPlain f test body → ∀ s n,
    Gets W f l.header (f.block l.header).instrs.length s → s.store.slots i.slot = .int n →
    (s.vars test).isTrue = i.goesOn n
  round : ∀ i test body, l.induction = some i → l.IsPlain f test body → ∀ s s' n,
    Gets W f body 0 s → s.store.slots i.slot = .int n →
    runAll W W.caller f.varType (l.round f body) s = .ok s' →
    s'.store.slots i.slot = .int (Word.wrap (n + i.step))

/-- The counter of a loop does not overflow in its rounds. -/
def LoopInfo.StaysInRange (l : LoopInfo) : Prop :=
  ∀ i trip, l.induction = some i → i.tripCount? = some trip →
    ∀ k ≤ trip, isInt64 (i.init + k * i.step) = true

/-- The counter tells how many rounds are left. -/
theorem LoopInfo.CountsTruly.hasRounds {W : World} {f : Function} (h : l.CountsTruly W f) (hrange : l.StaysInRange) :
  l.HasRounds W f
  := by
  intro i trip test body hi htrip hp
  use fun m store => m ≤ trip ∧ store.slots i.slot = .int (i.init + (trip - m : Nat) * i.step)
  constructor
  · intro s hs
    refine ⟨le_rfl, ?_⟩
    rw [h.start i test body hi hp s hs, Nat.sub_self]
    simp
  · rintro s m hs ⟨hle, hslot⟩
    rw [h.test i test body hi hp s _ hs hslot,
      Induction.goesOn_of_tripCount? htrip (Nat.sub_le trip m), decide_eq_decide]
    omega
  · rintro s s' m hs ⟨hle, hslot⟩ hrun
    refine ⟨Nat.le_of_succ_le hle, ?_⟩
    have hnext : i.init + (trip - (m + 1) : Nat) * i.step + i.step
        = i.init + (trip - m : Nat) * i.step := by
      rw [show trip - m = trip - (m + 1) + 1 by omega, Nat.cast_add, Nat.cast_one, Int.add_mul]
      omega
    rw [h.round i test body hi hp s s' _ hs hslot hrun, hnext, Word.wrap_of_isInt64]
    exact hrange i trip hi htrip _ (Nat.sub_le trip m)

/-! ## One loop -/

/-- A function becomes another one by unrolling a loop. -/
structure Unrolls (l : LoopInfo) (f g : Function) : Prop where
  verify : g.verify = .ok ()
  length : g.blocks.length = f.blocks.length
  ready : ∀ l' : LoopInfo, l'.header ≠ l.header → l'.IsReady f → l'.IsReady g
  runs : ∀ W, l.HasRounds W f → SameBehaviour W f g
    ∧ ∀ l' : LoopInfo, l'.header ≠ l.header → l'.IsReady f → l'.HasRounds W f → l'.HasRounds W g

namespace Unroll

section

variable {f : Function} {l : LoopInfo} {test : VarId} {c : Candidate}

/-- What is found out of a loop that can be unrolled. -/
theorem of_candidate? (h : candidate? f l = some c) :
  ∃ test, l.IsPlain f test c.body ∧ escapes f [c.body, l.latch] = false ∧ c.IsOf f l
    ∧ l.induction = some c.induction ∧ c.induction.tripCount? = some c.trip
  := by
  unfold candidate? at h
  obtain ⟨i, hi, h⟩ := Option.bind_eq_some_iff.mp h
  obtain ⟨trip, htrip, h⟩ := Option.bind_eq_some_iff.mp h
  split at h
  · next test body elseBlock hbranch =>
    split at h
    · next hplain =>
      obtain rfl := Option.some.inj h
      rw [Bool.and_eq_true, Bool.not_eq_true'] at hplain
      exact ⟨test, isPlain_of_isPlain hbranch hplain.1, hplain.2, ⟨rfl, rfl⟩, hi, htrip⟩
    · cases h
  · cases h

/-- Nothing that the body and the latch define is read outside. -/
theorem not_mem_of_escapes (hp : l.IsPlain f test c.body) (h : escapes f [c.body, l.latch] = false)
    {id d : BlockId} (hid : id ∉ l.blocks) {v : VarId} (hv : v ∈ (f.block id).uses)
    (hd : d ∈ [c.body, l.latch]) :
  v ∉ (f.block d).defs
  := by
  intro hdef
  have hmem : d ∈ l.blocks := by
    rw [hp.blocks]
    simpa using Or.inr (a := d = l.header) (by simpa using hd)
  rw [Block.defs, hp.params d hmem, List.nil_append] at hdef
  have hblock : f.blocks[id]? = some (f.block id) :=
    Function.getElem?_of_mem_block (P := fun b => v ∈ b.uses)
      (by simp [Block.uses, Block.instrs, Block.empty, Terminator.uses]) hv
  rw [escapes, Bool.eq_false_iff, ne_eq, List.any_eq_true] at h
  refine h ⟨(f.block id, id), List.mk_mem_zipIdx_iff_getElem?.mpr hblock, ?_⟩
  have hout : id ∉ [c.body, l.latch] := by
    rw [hp.blocks] at hid
    simpa using fun h : id = c.body ∨ id = l.latch => hid (.inr h)
  simp only [List.contains_eq_mem, Bool.and_eq_true, Bool.not_eq_true', decide_eq_false_iff_not,
    List.any_eq_true, decide_eq_true_eq]
  exact ⟨hout, v, hv, List.mem_flatMap.mpr ⟨d, hd, hdef⟩⟩

theorem unrollable_of_candidate? (hf : f.verify = .ok ()) (hr : l.IsReady f) (hp : l.IsPlain f test c.body)
    (hescapes : escapes f [c.body, l.latch] = false) :
  Unrollable f l test c.body
  where
  verify := hf
  plain := hp
  wellFormed := hr.wellFormed
  entry := hr.entry
  exit := hr.exit
  header := hr.header hp
  own id hid v hv d hd := by
    rcases (hp.blocks d).mp hd with rfl | rfl | rfl
    · exact hr.own hp id hid v hv
    · exact not_mem_of_escapes hp hescapes hid hv (by simp)
    · exact not_mem_of_escapes hp hescapes hid hv (by simp)

variable (h : Unrollable f l test c.body)

include h

/-- The lines of the loop are where they were after rounds were copied in front of it. -/
theorem isOf_appendRounds (hc : c.IsOf f l) (n : Nat) :
  c.IsOf (appendRounds c l.preheader n f) l
  := by
  constructor
  · rw [block_appendRounds_of_ne h hc n (h.preheader_ne h.plain.header_mem)]
    exact hc.test
  · rw [block_appendRounds_of_ne h hc n (h.preheader_ne h.plain.body_mem),
      block_appendRounds_of_ne h hc n (h.preheader_ne h.plain.latch_mem)]
    exact hc.round

/-- Rounds are copied in front of a loop, and then what is left of it is changed. -/
theorem unrolls_of_rewrites {g : Function} (hc : c.IsOf f l) (hi : l.induction = some c.induction)
    (htrip : c.induction.tripCount? = some c.trip) {m n : Nat} (hn : c.trip = m + n)
    (hrewrites : Rewrites l c.body (appendRounds c l.preheader n f) g) {hidden : VarId → Prop}
    {inner : BlockId → Prop}
    (hhidden : ∀ v, hidden v → ∃ d ∈ l.blocks, v ∈ ((appendRounds c l.preheader n f).block d).defs)
    (hinner : ∀ d, inner d → d ∈ l.blocks)
    (hstrides : ∀ W left, CountsDown W (appendRounds c l.preheader n f) l test c.body left m →
      ∃ meeting, Strides W (appendRounds c l.preheader n f) g hidden meeting inner) :
  Unrolls l f g
  := by
  have hpeeled := rewrites_appendRounds h hc n
  have hafter := unrollable_appendRounds h hc n
  constructor
  · exact hrewrites.verify
  · exact hrewrites.length.trans hpeeled.length
  · exact fun l' hne hr => hrewrites.isReady hafter hne (hpeeled.isReady h hne hr)
  · intro W hrounds
    obtain ⟨left, hcount⟩ := hrounds _ _ _ _ hi htrip h.plain
    rw [hn] at hcount
    have hfirst := strides_appendRounds h hc hcount
    obtain ⟨meeting, hsecond⟩ := hstrides W left (countsDown_appendRounds h hc hcount)
    refine ⟨hfirst.sameBehaviour.trans hsecond.sameBehaviour, fun l' hne hr hrounds' => ?_⟩
    apply hrewrites.hasRounds hafter hsecond hhidden hinner hne (hpeeled.isReady h hne hr)
    exact hpeeled.hasRounds h hfirst (fun _ => False.elim) (fun _ => False.elim) hne hr hrounds'

theorem unrolls_replaceLoop (hc : c.IsOf f l) (hi : l.induction = some c.induction)
    (htrip : c.induction.tripCount? = some c.trip) :
  Unrolls l f (replaceLoop l c f)
  := by
  have hafter := unrollable_appendRounds h hc c.trip
  apply unrolls_of_rewrites h hc hi htrip (Nat.zero_add _).symm (rewrites_skipLoop hafter)
    (fun _ hv => hv) (fun _ => False.elim)
  exact fun W left hcount => ⟨_, strides_skipLoop hafter hcount⟩

theorem unrolls_fillBody (hc : c.IsOf f l) (hi : l.induction = some c.induction)
    (htrip : c.induction.tripCount? = some c.trip) {factor : Nat} (hfactor : 0 < factor) :
  Unrolls l f (fillBody l c factor (appendRounds c l.preheader (c.trip % factor) f))
  := by
  have hafter := unrollable_appendRounds h hc (c.trip % factor)
  have hc' := isOf_appendRounds h hc (c.trip % factor)
  refine unrolls_of_rewrites h hc hi htrip (Nat.div_add_mod' c.trip factor).symm
    (rewrites_fillBody hafter hc' factor) ?_ ?_
    fun W left hcount => ⟨_, strides_fillBody hafter hc' hfactor hcount⟩
  · rintro v (hv | hv)
    · exact ⟨_, h.plain.body_mem, hv⟩
    · exact ⟨_, h.plain.latch_mem, hv⟩
  · rintro d (rfl | rfl)
    · exact h.plain.body_mem
    · exact h.plain.latch_mem

end

/-! ## All loops -/

/-- The blocks that are named in what is said of loops exist. -/
def LoopsExist (f : Function) (loops : List LoopInfo) : Prop :=
  ∀ l ∈ loops, ∀ id ∈ l.preheader :: l.header :: l.latch :: l.exit :: l.blocks, id < f.blocks.length

/-- A function is well-formed whatever loops it is said to have, if their blocks exist. -/
theorem verify_withLoops {f : Function} (hf : f.verify = .ok ()) {loops : List LoopInfo}
    (hloops : LoopsExist f loops) :
  { f with loops := loops }.verify = .ok ()
  := by
  obtain ⟨hssa, hshape, hlt, hblocks⟩ := Function.verify_iff.mp hf
  rw [Verify.shape, check_bind_eq_ok, check_bind_eq_ok] at hshape
  refine Function.verify_iff.mpr ⟨?_, ?_, hlt, hblocks⟩
  · refine ⟨hssa.entry, hssa.unique, hssa.nodup, fun hid hb hread => ?_, hssa.jump, hssa.branch⟩
    have hid' := Function.mem_reversePostorder_of_successors (f := f) hid rfl fun _ _ hnext => hnext
    obtain ⟨site, hsite, hwhere⟩ := hssa.reads hid' hb hread
    refine ⟨site, hsite, hwhere.imp_right (And.imp_right fun hdominates => ?_)⟩
    exact Function.dominates_of_successors hdominates hid rfl fun _ _ hnext => hnext
  · rw [Verify.shape, check_bind_eq_ok, check_bind_eq_ok]
    refine ⟨hshape.1, hshape.2.1, forM_eq_ok.mpr fun l hl => forM_eq_ok.mpr fun id hid => ?_⟩
    simpa using hloops l hl id hid

/-- Unrolling one loop after the other. -/
theorem sound_loops {factor : Nat} (hfactor : 0 < factor) {rest done : List LoopInfo} {f : Function}
    (hf : f.verify = .ok ()) (hheaders : (rest.map (·.header)).Nodup) (hready : ∀ l ∈ rest, l.IsReady f)
    (hrest : LoopsExist f rest) (hdone : LoopsExist f done) :
  (loops factor done rest f).2.verify = .ok ()
    ∧ ∀ W, (∀ l ∈ rest, l.HasRounds W f) → SameBehaviour W f (loops factor done rest f).2
  := by
  induction rest generalizing done f with
  | nil => exact ⟨verify_withLoops hf hdone, fun W _ _ _ _ => .refl _ _⟩
  | cons l rest ih =>
    rw [List.map_cons, List.nodup_cons] at hheaders
    have hne : ∀ l' ∈ rest, l'.header ≠ l.header := fun l' hl' heq =>
      hheaders.1 (List.mem_map.mpr ⟨l', hl', heq⟩)
    have hrest' : LoopsExist f rest := fun l' hl' => hrest l' (List.mem_cons_of_mem l hl')
    -- A loop that is left as it is.
    have hkept : (loops factor (done ++ [l]) rest f).2.verify = .ok ()
        ∧ ∀ W, (∀ l' ∈ l :: rest, l'.HasRounds W f) →
          SameBehaviour W f (loops factor (done ++ [l]) rest f).2 := by
      have hdone' : LoopsExist f (done ++ [l]) := fun l' hl' =>
        (List.mem_append.mp hl').elim (hdone l') fun hl' => hrest l' (by simp_all)
      obtain ⟨hverify, hsame⟩ := ih hf hheaders.2 (fun l' hl' => hready l' (by simp [hl'])) hrest' hdone'
      exact ⟨hverify, fun W hrounds => hsame W fun l' hl' => hrounds l' (by simp [hl'])⟩
    -- A loop that is unrolled.
    have hunrolled : ∀ {g done'}, Unrolls l f g → LoopsExist f done' →
        (loops factor done' rest g).2.verify = .ok ()
          ∧ ∀ W, (∀ l' ∈ l :: rest, l'.HasRounds W f) → SameBehaviour W f (loops factor done' rest g).2 := by
      intro g done' hunrolls hdone'
      obtain ⟨hverify, hsame⟩ := ih hunrolls.verify hheaders.2
        (fun l' hl' => hunrolls.ready l' (hne l' hl') (hready l' (by simp [hl'])))
        (fun l' hl' id hid => hunrolls.length ▸ hrest' l' hl' id hid)
        (fun l' hl' id hid => hunrolls.length ▸ hdone' l' hl' id hid)
      refine ⟨hverify, fun W hrounds => ?_⟩
      obtain ⟨hfirst, hothers⟩ := hunrolls.runs W (hrounds l (by simp))
      exact hfirst.trans (hsame W fun l' hl' =>
        hothers l' (hne l' hl') (hready l' (by simp [hl'])) (hrounds l' (by simp [hl'])))
    rw [loops]
    split
    · exact hkept
    · next c hc =>
      obtain ⟨test, hp, hescapes, hof, hi, htrip⟩ := of_candidate? hc
      have h := unrollable_of_candidate? hf (hready l (by simp)) hp hescapes
      split
      · exact hunrolled (unrolls_replaceLoop h hof hi htrip) hdone
      · simp only
        split
        · exact hkept
        · next i hinduction =>
          refine hunrolled (unrolls_fillBody h hof hi htrip hfactor) fun l' hl' => ?_
          rcases List.mem_append.mp hl' with hl' | hl'
          · exact hdone l' hl'
          · obtain rfl := List.mem_singleton.mp hl'
            exact hrest l (by simp)

end Unroll

/-- A loop of which the truth is said can be unrolled if it is plain. -/
theorem LoopInfo.IsTruthful.isReady {f : Function} (h : l.IsTruthful f) (hheader : l.header ∈ f.reversePostorder) :
  l.IsReady f
  := ⟨h.wellFormed, h.entry, h.exit, fun _ => hheader, fun _ => h.own⟩

/--
Unrolling keeps a function well-formed if what is said of its loops is true and no two of them have the
same header. It behaves as before in all worlds in which what is said of their counters is true.
-/
theorem sameBehaviour_unrollLoops {f : Function} (hf : f.verify = .ok ())
    (hreached : ∀ id < f.blocks.length, f.isReachable id = true)
    (hheaders : (f.loops.map (·.header)).Nodup) (htrue : ∀ l ∈ f.loops, l.IsTruthful f)
    (hrange : ∀ l ∈ f.loops, l.StaysInRange) (factor : Nat) :
  (unrollLoops factor f).2.verify = .ok ()
    ∧ ∀ W, (∀ l ∈ f.loops, l.CountsTruly W f) → SameBehaviour W f (unrollLoops factor f).2
  := by
  unfold unrollLoops
  split
  · exact ⟨hf, fun W _ => .refl W f⟩
  · next hfactor =>
    have hexist : Unroll.LoopsExist f f.loops := fun l hl id hid => Verify.lt_of_mem_loop hf hl hid
    obtain ⟨hverify, hsame⟩ := @Unroll.sound_loops factor (by omega) f.loops [] f hf hheaders
      (fun l hl => (htrue l hl).isReady (by
        simpa [Function.isReachable] using hreached l.header (hexist l hl _ (by simp))))
      hexist (fun l hl => by cases hl)
    have hsame' : ∀ W, (∀ l ∈ f.loops, l.CountsTruly W f) →
        SameBehaviour W f (Unroll.loops factor [] f.loops f).2 := fun W hcounts =>
      hsame W fun l hl => (hcounts l hl).hasRounds (hrange l hl)
    simp only
    split
    · exact ⟨hverify, hsame'⟩
    · obtain ⟨hverify', hremoved⟩ := Function.sameBehaviour_removeUnreachable hverify
      exact ⟨hverify', fun W hcounts => (hsame' W hcounts).trans (hremoved W)⟩

/-! ## Examples -/

/-- The loop of `sumsBelow`. -/
def sumsBelowLoop (bound : Int) : LoopInfo where
  preheader := 0
  header := 1
  latch := 3
  exit := 4
  blocks := [1, 2, 3]
  induction := some ⟨0, 0, bound, 1, .lt⟩

/-- Adds up the numbers from zero to a bound, which is left out, in a loop that is listed some times. -/
def sumsBelow (bound : Int) (times : Nat) : Function where
  name := "sum"
  params := []
  result := .int 64
  blocks :=
    [ ⟨[], [⟨.set 0 (.const (.int 0)), none⟩, ⟨.store 0 0, none⟩, ⟨.store 1 0, none⟩], .jump 1 []⟩,
      ⟨[], [⟨.load 1 0, none⟩, ⟨.set 2 (.const (.int bound)), none⟩, ⟨.set 3 (.binary .lt 1 2), none⟩],
        .branch 3 2 4⟩,
      ⟨[], [⟨.load 4 1, none⟩, ⟨.set 5 (.binary .add 4 1), none⟩, ⟨.store 1 5, none⟩], .jump 3 []⟩,
      ⟨[], [⟨.load 6 0, none⟩, ⟨.set 7 (.const (.int 1)), none⟩, ⟨.set 8 (.binary .add 6 7), none⟩,
        ⟨.store 0 8, none⟩], .jump 1 []⟩,
      ⟨[], [⟨.load 9 1, none⟩], .ret (some 9)⟩ ]
  entry := 0
  varTypes := [.int 64, .int 64, .int 64, .bool, .int 64, .int 64, .int 64, .int 64, .int 64, .int 64]
  slots := [⟨some "i", .int 64⟩, ⟨some "sum", .int 64⟩]
  loops := List.replicate times (sumsBelowLoop bound)
  flags := .none

theorem countsTruly_sumsBelow (W : World) (bound : Int) (times : Nat) :
  (sumsBelowLoop bound).CountsTruly W (sumsBelow bound times)
  where
  start := by
    rintro i test body hi - s ⟨args, vars, store, n, s₀, -, hrun⟩
    obtain rfl := Option.some.inj hi
    obtain rfl : _ = s := Except.ok.inj hrun
    rfl
  test := by
    rintro i test body hi hp s n ⟨args, vars, store, k, s₀, -, hrun⟩ hslot
    obtain rfl := Option.some.inj hi
    obtain ⟨rfl, rfl, -⟩ := Terminator.branch.inj hp.branch
    obtain rfl : _ = s := Except.ok.inj hrun
    have hcounter : s₀.store.slots 0 = .int n := hslot
    change (W.apply .lt .bool (s₀.store.slots 0) (.int bound)).isTrue = decide (n < bound)
    rw [hcounter]
    rfl
  round := by
    rintro i test body hi hp s s' n - hslot hrun
    obtain rfl := Option.some.inj hi
    obtain ⟨rfl, rfl, -⟩ := Terminator.branch.inj hp.branch
    obtain rfl : _ = s' := Except.ok.inj hrun
    change W.apply .add (.int 64) (s.store.slots 0) (.int 1) = .int (Word.wrap (n + 1))
    rw [show s.store.slots 0 = .int n from hslot]
    rfl

theorem staysInRange_sumsBelow {bound : Int} {trip : Nat}
    (htrip : Induction.tripCount? ⟨0, 0, bound, 1, .lt⟩ = some trip)
    (hrange : ∀ k ≤ trip, isInt64 (0 + k * 1) = true) :
  (sumsBelowLoop bound).StaysInRange
  := by
  rintro i trip' hi htrip'
  obtain rfl := Option.some.inj hi
  obtain rfl := Option.some.inj (htrip.symm.trans htrip')
  exact hrange

theorem sameBehaviour_unrollLoops_sumsBelow :
  (unrollLoops 2 (sumsBelow 3 1)).1 = 1 ∧ (unrollLoops 2 (sumsBelow 3 1)).2.verify = .ok ()
    ∧ ∀ W, SameBehaviour W (sumsBelow 3 1) (unrollLoops 2 (sumsBelow 3 1)).2
  := by
  have hloops : ∀ l ∈ (sumsBelow 3 1).loops, l = sumsBelowLoop 3 := fun l hl => List.eq_of_mem_replicate hl
  have hrange : ∀ l ∈ (sumsBelow 3 1).loops, l.StaysInRange := by
    intro l hl
    rw [hloops l hl]
    exact staysInRange_sumsBelow (show _ = some 3 by decide) (by decide)
  obtain ⟨hverify, hsame⟩ := sameBehaviour_unrollLoops (by decide +kernel) (by decide +kernel) (by decide)
    (by decide +kernel) hrange 2
  refine ⟨by decide +kernel, hverify, fun W => hsame W fun l hl => ?_⟩
  rw [hloops l hl]
  exact countsTruly_sumsBelow W 3 1

/-- The number that a function without arguments returns in so many steps. -/
def Function.returned? (f : Function) (W : World) (n : Nat) : Option Int :=
  match steps (f.step W W.caller) n (f.startPoint [] (fun _ => .nothing) ⟨fun _ => .nothing, []⟩) with
  | .error (.returned _ _ (some (.int k))) => some k
  | _ => none

theorem SameBehaviour.returned?_eq {W : World} {f g : Function} (h : SameBehaviour W f g) {m n : Nat}
    {j k : Int} (hf : f.returned? W m = some j) (hg : g.returned? W n = some k) :
  j = k
  := by
  unfold Function.returned? at hf hg
  split at hf
  · next trace slots j' hj =>
    obtain rfl := Option.some.inj hf
    split at hg
    · next trace' slots' k' hk =>
      obtain rfl := Option.some.inj hg
      obtain ⟨m', hm'⟩ := ((h _ _ _).ends _).mp ⟨m, hj⟩
      have hend := steps_error_of_le hm' (Nat.le_max_left m' n)
      rw [steps_error_of_le hk (Nat.le_max_right m' n)] at hend
      cases hend
      rfl
    · cases hg
  · cases hf

/-- The loop is listed twice, and its round is copied each time. -/
theorem unrollLoops_sumsBelow_twice :
  (sumsBelow 1 2).verify = .ok ()
    ∧ (∀ id < (sumsBelow 1 2).blocks.length, (sumsBelow 1 2).isReachable id = true)
    ∧ (∀ l ∈ (sumsBelow 1 2).loops, l.IsTruthful (sumsBelow 1 2) ∧ l.StaysInRange
      ∧ ∀ W, l.CountsTruly W (sumsBelow 1 2))
    ∧ ∃ W, ¬SameBehaviour W (sumsBelow 1 2) (unrollLoops 2 (sumsBelow 1 2)).2
  := by
  have htrue : (sumsBelowLoop 1).IsTruthful (sumsBelow 1 2) := by decide +kernel
  refine ⟨by decide +kernel, by decide +kernel, fun l hl => ?_, ?_⟩
  · rw [List.eq_of_mem_replicate (show l ∈ List.replicate 2 (sumsBelowLoop 1) from hl)]
    exact ⟨htrue, staysInRange_sumsBelow (show _ = some 1 by decide) (by decide),
      fun W => countsTruly_sumsBelow W 1 2⟩
  · use ⟨fun _ => .nothing, fun _ _ _ _ => .nothing, fun _ _ _ => .nothing, fun _ _ => .nothing,
      fun _ => none, fun _ => .nothing⟩
    intro hsame
    have heq := hsame.returned?_eq (m := 6) (n := 2) (j := 0) (k := 1) (by decide +kernel)
      (by decide +kernel)
    cases heq

end FormCompiler.Flow
