import FormCompiler.Optimize.Unroll
import FormCompiler.Proofs.Word.Range
import Mathlib.Tactic.Ring

/-!
# Numbers of rounds

A counted loop over the integers ends after as many rounds as are computed for it. No number is computed if the
loop does not end or runs too often, or if it is not entered and its step leads away from the bound. A loop
that is unrolled runs through the rounds that are left after some were copied in front of it
(`exact_tripCount`).
-/

namespace FormCompiler.Flow

namespace Induction

variable {i : Induction} {n : Int} {t k : Nat}

/-! ## Runs of a loop -/

/-- Whether a loop goes on when its counter has a value. -/
def goesOn (i : Induction) (n : Int) : Bool :=
  match i.cmp with
  | .lt => n < i.bound
  | .le => n ≤ i.bound
  | .gt => i.bound < n
  | .ge => i.bound ≤ n
  | .eq => n == i.bound
  | .ne => n != i.bound
  | _ => false

/-- A loop whose counter has a value ends after so many rounds. -/
inductive Runs (i : Induction) : Int → Nat → Prop where
  | stop {n : Int} (h : i.goesOn n = false) : Runs i n 0
  | next {n : Int} {t : Nat} (h : i.goesOn n = true) (rest : Runs i (n + i.step) t) : Runs i n (t + 1)

/-- A step is zero, or it leads away from the bound. -/
def Misdirected (i : Induction) : Prop :=
  i.step = 0 ∨ (i.step < 0 ∧ (i.cmp = .lt ∨ i.cmp = .le)) ∨ (0 < i.step ∧ (i.cmp = .gt ∨ i.cmp = .ge))

/-- The loop goes on in each round before the last one has ended, and then it does not. -/
theorem runs_iff :
  i.Runs n t ↔ (∀ k < t, i.goesOn (n + k * i.step) = true) ∧ i.goesOn (n + t * i.step) = false
  := by
  have hshift : ∀ {n : Int} (k : Nat), n + i.step + k * i.step = n + (k + 1 : Nat) * i.step := by
    intro n k
    rw [Nat.cast_succ, Int.add_mul]
    omega
  constructor
  · intro h
    induction h with
    | stop h => simpa using h
    | next h rest ih =>
      refine ⟨fun k hk => ?_, ?_⟩
      · cases k with
        | zero => simpa using h
        | succ k => exact hshift k ▸ ih.1 k (Nat.lt_of_succ_lt_succ hk)
      · exact hshift _ ▸ ih.2
  · induction t generalizing n with
    | zero =>
      rintro ⟨-, hstop⟩
      exact .stop (by simpa using hstop)
    | succ t ih =>
      rintro ⟨hnext, hstop⟩
      refine .next (by simpa using hnext 0 t.succ_pos) (ih ⟨fun k hk => ?_, ?_⟩)
      · rw [hshift]
        exact hnext (k + 1) (Nat.succ_lt_succ hk)
      · rw [hshift]
        exact hstop

theorem Runs.unique {t' : Nat} (h : i.Runs n t) (h' : i.Runs n t') :
  t = t'
  := by
  induction h generalizing t' with
  | stop hstop =>
    cases h' with
    | stop => rfl
    | next hnext => cases hstop.symm.trans hnext
  | next hnext rest ih =>
    cases h' with
    | stop hstop => cases hstop.symm.trans hnext
    | next _ rest' => rw [ih rest']

theorem not_runs_of_goesOn (h : ∀ k : Nat, i.goesOn (n + k * i.step) = true) :
  ∀ t, ¬i.Runs n t
  := fun t hruns => Bool.false_ne_true ((runs_iff.mp hruns).2.symm.trans (h t))

/-! ## Distances -/

theorem unsigned?_natCast (t : Nat) :
  unsigned? t = if t < 2 ^ 64 then some t else none
  := by
  have hrange : (0 ≤ (t : Int) ∧ (t : Int) < twoPow 64) ↔ t < 2 ^ 64 := by
    simp only [twoPow, Nat.pow_eq]
    omega
  rw [unsigned?, Int.toNat_natCast]
  simp only [hrange]

/-- The number of steps that a distance takes is computed if it is an unsigned 64-bit number. -/
theorem steps?_eq (distance : Int) {magnitude : Int} (hmagnitude : 0 < magnitude) :
  ∃ t : Nat, (∀ k : Nat, k < t ↔ k * magnitude < distance)
    ∧ steps? distance magnitude = if t < 2 ^ 64 then some t else none
  := by
  unfold steps?
  split
  · next hle =>
    refine ⟨0, fun k => ?_, rfl⟩
    have hnonneg : 0 ≤ (k : Int) * magnitude := Int.mul_nonneg (Int.natCast_nonneg k) hmagnitude.le
    omega
  · rw [Int.tdiv_eq_ediv_of_nonneg (by omega)]
    obtain ⟨t, ht⟩ := Int.eq_ofNat_of_zero_le (Int.ediv_nonneg (a := distance + magnitude - 1) (by omega) hmagnitude.le)
    refine ⟨t, fun k => ?_, ht ▸ unsigned?_natCast t⟩
    rw [← Int.ofNat_lt, ← ht, ← Int.add_one_le_iff, Int.le_ediv_iff_mul_le hmagnitude, Int.add_mul]
    omega

/-- A loop that goes on until its counter has gone a distance ends after the steps that this takes. -/
theorem runs_steps? {distance magnitude : Int} (hmagnitude : 0 < magnitude)
    (hgoes : ∀ k : Nat, i.goesOn (i.init + k * i.step) = decide (k * magnitude < distance)) :
  ∃ t, i.Runs i.init t ∧ steps? distance magnitude = if t < 2 ^ 64 then some t else none
  := by
  obtain ⟨t, hlt, hsteps⟩ := steps?_eq distance hmagnitude
  refine ⟨t, runs_iff.mpr ⟨fun k hk => ?_, ?_⟩, hsteps⟩
  · rw [hgoes, decide_eq_true_iff]
    exact (hlt k).mp hk
  · rw [hgoes, decide_eq_false_iff_not, ← hlt]
    exact Nat.lt_irrefl t

/-- A loop that goes on until its counter is the bound ends if the steps lead there. -/
theorem runs_tdiv (hcmp : i.cmp = .ne) (hstep : i.step ≠ 0) :
  (∃ t, i.Runs i.init t ∧ i.tripCount? = if t < 2 ^ 64 then some t else none)
    ∨ i.tripCount? = none ∧ ∀ t, ¬i.Runs i.init t
  := by
  have hgoes : ∀ k : Nat, i.goesOn (i.init + k * i.step) = true ↔ i.bound - i.init ≠ k * i.step := by
    intro k
    simp only [goesOn, hcmp, bne_iff_ne]
    omega
  unfold tripCount?
  simp only [hcmp, if_neg hstep]
  split
  · next hrest =>
    refine .inr ⟨rfl, not_runs_of_goesOn fun k => (hgoes k).mpr fun hreached => hrest ?_⟩
    rw [hreached, Int.mul_tmod_left]
  · next hrest =>
    have hdistance := Int.mul_tdiv_add_tmod (i.bound - i.init) i.step
    rw [not_not.mp hrest, Int.add_zero, Int.mul_comm] at hdistance
    have hcount : ∀ k : Nat, i.bound - i.init = k * i.step ↔ (i.bound - i.init).tdiv i.step = k := by
      intro k
      constructor
      · intro hreached
        rw [hreached, Int.mul_tdiv_cancel _ hstep]
      · intro hquotient
        rw [← hdistance, hquotient]
    by_cases hnonneg : 0 ≤ (i.bound - i.init).tdiv i.step
    · obtain ⟨t, ht⟩ := Int.eq_ofNat_of_zero_le hnonneg
      refine .inl ⟨t, runs_iff.mpr ⟨fun k hk => (hgoes k).mpr ?_, ?_⟩, ht ▸ unsigned?_natCast t⟩
      · rw [ne_eq, hcount, ht, Int.ofNat_inj]
        exact hk.ne'
      · rw [Bool.eq_false_iff, ne_eq, hgoes, not_not]
        exact (hcount t).mpr ht
    · refine .inr ⟨?_, not_runs_of_goesOn fun k => (hgoes k).mpr ?_⟩
      · rw [unsigned?, if_neg fun hrange => hnonneg hrange.1]
      · rw [ne_eq, hcount]
        omega

/-! ## Trip counts -/

/-- The loop goes on while its counter compares with the bound, and it is not their equality that is asked for. -/
def Compares (i : Induction) : Prop :=
  i.cmp = .lt ∨ i.cmp = .le ∨ i.cmp = .gt ∨ i.cmp = .ge ∨ i.cmp = .ne

/-- The number of rounds is computed if the step does not lead away from the bound and the loop ends in time. -/
theorem tripCount?_eq (hcmp : i.Compares) (hdirected : ¬i.Misdirected) :
  (∃ t, i.Runs i.init t ∧ i.tripCount? = if t < 2 ^ 64 then some t else none)
    ∨ i.tripCount? = none ∧ ∀ t, ¬i.Runs i.init t
  := by
  have hstep : i.step ≠ 0 := fun hzero => hdirected (.inl hzero)
  have hup : i.cmp = .lt ∨ i.cmp = .le → 0 < i.step := by
    intro hless
    by_contra hle
    exact hdirected (.inr (.inl ⟨by omega, hless⟩))
  have hdown : i.cmp = .gt ∨ i.cmp = .ge → i.step < 0 := by
    intro hgreater
    by_contra hle
    exact hdirected (.inr (.inr ⟨by omega, hgreater⟩))
  rcases hcmp with hcmp | hcmp | hcmp | hcmp | hcmp
  · have hpos := hup (.inl hcmp)
    simp only [tripCount?, if_neg hstep, hcmp, if_pos hpos]
    refine .inl (runs_steps? hpos fun k => ?_)
    simp only [goesOn, hcmp, decide_eq_decide]
    omega
  · have hpos := hup (.inr hcmp)
    simp only [tripCount?, if_neg hstep, hcmp, if_pos hpos]
    refine .inl (runs_steps? hpos fun k => ?_)
    simp only [goesOn, hcmp, decide_eq_decide]
    omega
  · have hneg := hdown (.inl hcmp)
    simp only [tripCount?, if_neg hstep, hcmp, if_pos hneg]
    refine .inl (runs_steps? (by omega) fun k => ?_)
    simp only [goesOn, hcmp, decide_eq_decide, Int.mul_neg]
    omega
  · have hneg := hdown (.inr hcmp)
    simp only [tripCount?, if_neg hstep, hcmp, if_pos hneg]
    refine .inl (runs_steps? (by omega) fun k => ?_)
    simp only [goesOn, hcmp, decide_eq_decide, Int.mul_neg]
    omega
  · exact runs_tdiv hcmp hstep

theorem tripCount?_of_misdirected (h : i.Misdirected) :
  i.tripCount? = none
  := by
  unfold tripCount?
  split
  · rfl
  · next hstep =>
    rcases h with hzero | ⟨hneg, hcmp | hcmp⟩ | ⟨hpos, hcmp | hcmp⟩
    · exact absurd hzero hstep
    · simp only [hcmp, if_neg (not_lt.mpr hneg.le)]
    · simp only [hcmp, if_neg (not_lt.mpr hneg.le)]
    · simp only [hcmp, if_neg (not_lt.mpr hpos.le)]
    · simp only [hcmp, if_neg (not_lt.mpr hpos.le)]

/-- A loop that is entered although its step leads away from the bound does not end. -/
theorem Misdirected.not_runs (h : i.Misdirected) (hgoes : i.goesOn i.init = true) :
  ∀ t, ¬i.Runs i.init t
  := by
  refine not_runs_of_goesOn fun k => ?_
  rcases h with hzero | ⟨hneg, hcmp⟩ | ⟨hpos, hcmp⟩
  · rwa [hzero, Int.mul_zero, Int.add_zero]
  · have hfar : (k : Int) * i.step ≤ 0 := Int.mul_nonpos_of_nonneg_of_nonpos (Int.natCast_nonneg k) hneg.le
    rcases hcmp with hcmp | hcmp
    · simp only [goesOn, hcmp, decide_eq_true_iff] at hgoes ⊢
      omega
    · simp only [goesOn, hcmp, decide_eq_true_iff] at hgoes ⊢
      omega
  · have hfar : 0 ≤ (k : Int) * i.step := Int.mul_nonneg (Int.natCast_nonneg k) hpos.le
    rcases hcmp with hcmp | hcmp
    · simp only [goesOn, hcmp, decide_eq_true_iff] at hgoes ⊢
      omega
    · simp only [goesOn, hcmp, decide_eq_true_iff] at hgoes ⊢
      omega

theorem compares_of_tripCount? (h : i.tripCount? = some t) :
  i.Compares
  := by
  unfold Compares
  unfold tripCount? at h
  split at h
  · cases h
  · cases hcmp : i.cmp with
    | lt | le | gt | ge | ne => simp
    | _ => simp [hcmp] at h

theorem runs_of_tripCount? (h : i.tripCount? = some t) :
  i.Runs i.init t ∧ t < 2 ^ 64 ∧ ¬i.Misdirected
  := by
  have hdirected : ¬i.Misdirected := by
    intro hmisdirected
    cases (tripCount?_of_misdirected hmisdirected).symm.trans h
  rcases tripCount?_eq (compares_of_tripCount? h) hdirected with ⟨t', hruns, htrip⟩ | ⟨hnone, -⟩
  · rw [h] at htrip
    split at htrip
    · next hlt =>
      obtain rfl := Option.some.inj htrip
      exact ⟨hruns, hlt, hdirected⟩
    · cases htrip
  · cases hnone.symm.trans h

theorem tripCount?_eq_some (hcmp : i.Compares) (hdirected : ¬i.Misdirected) (hruns : i.Runs i.init t) (hlt : t < 2 ^ 64) :
  i.tripCount? = some t
  := by
  rcases tripCount?_eq hcmp hdirected with ⟨t', hruns', htrip⟩ | ⟨-, hendless⟩
  · rw [htrip, ← hruns.unique hruns', if_pos hlt]
  · exact absurd hruns (hendless t)

theorem endless_of_tripCount? (hcmp : i.Compares) (h : i.tripCount? = none) :
  (∀ t, ¬i.Runs i.init t) ∨ (∃ t, 2 ^ 64 ≤ t ∧ i.Runs i.init t) ∨ i.goesOn i.init = false ∧ i.Misdirected
  := by
  by_cases hdirected : i.Misdirected
  · cases hgoes : i.goesOn i.init with
    | true => exact .inl (hdirected.not_runs hgoes)
    | false => exact .inr (.inr ⟨rfl, hdirected⟩)
  · rcases tripCount?_eq hcmp hdirected with ⟨t, hruns, htrip⟩ | ⟨-, hendless⟩
    · refine .inr (.inl ⟨t, ?_, hruns⟩)
      by_contra hlt
      rw [h, if_pos (by omega)] at htrip
      cases htrip
    · exact .inl hendless

/-- The loop goes on in each round before the last one has ended, and then it does not. -/
theorem goesOn_of_tripCount? {trip : Nat} (h : i.tripCount? = some trip) {k : Nat} (hk : k ≤ trip) :
  i.goesOn (i.init + k * i.step) = decide (k < trip)
  := by
  obtain ⟨hnext, hstop⟩ := runs_iff.mp (runs_of_tripCount? h).1
  rcases Nat.lt_or_eq_of_le hk with hlt | rfl
  · rw [hnext k hlt, decide_eq_true hlt]
  · rw [hstop, decide_eq_false (Nat.lt_irrefl k)]

theorem valueAt?_eq_some {v : Int} (h : i.valueAt? k = some v) :
  v = i.init + k * i.step
  := by
  unfold valueAt? at h
  split at h
  · obtain ⟨offset, hoffset, hv⟩ := Option.bind_eq_some_iff.mp h
    rw [(Word.checked?_eq_some.mp hv).1, (Word.checked?_eq_some.mp hoffset).1]
    rw [Int.mul_comm, Int.add_comm]
  · cases h

end Induction

/-! ## Unrolled loops -/

namespace Unroll

/-- The counter of an unrolled loop starts after the rounds in front of it and changes by as many steps as are taken. -/
theorem induction?_eq_some {i i' : Induction} {peeled factor : Nat} (h : induction? i peeled factor = some i') :
  i' = { i with init := i.init + peeled * i.step, step := i.step * factor }
  := by
  obtain ⟨init, hinit, h⟩ := Option.bind_eq_some_iff.mp h
  obtain ⟨step, hstep, h⟩ := Option.bind_eq_some_iff.mp h
  rw [← Option.some.inj h, Induction.valueAt?_eq_some hinit, (Word.checked?_eq_some.mp hstep).1]

/-- The rounds that are left are so many times as many as those of the unrolled loop. -/
theorem tripCount?_of_induction? {i i' : Induction} {trip factor : Nat} (hfactor : 0 < factor)
    (htrip : i.tripCount? = some trip) (h : induction? i (trip % factor) factor = some i') :
  i'.tripCount? = some (trip / factor)
  := by
  obtain ⟨-, hlt, hdirected⟩ := Induction.runs_of_tripCount? htrip
  have hcmp := Induction.compares_of_tripCount? htrip
  obtain rfl := induction?_eq_some h
  have hrounds := Nat.mod_add_div trip factor
  have hgoes : ∀ k ≤ trip / factor,
      i.goesOn (i.init + (trip % factor : Nat) * i.step + k * (i.step * factor)) = decide (k < trip / factor) := by
    intro k hk
    have hcounter : (trip % factor : Nat) * i.step + k * (i.step * factor)
        = (trip % factor + factor * k : Nat) * i.step := by
      push_cast
      ring
    have hle := Nat.mul_le_mul_left factor hk
    rw [Int.add_assoc, hcounter, Induction.goesOn_of_tripCount? htrip (by omega), decide_eq_decide,
      ← Nat.mul_lt_mul_left hfactor (b := k)]
    omega
  apply Induction.tripCount?_eq_some
  · exact hcmp
  · have hpos : (0 : Int) < factor := Int.natCast_pos.mpr hfactor
    unfold Induction.Misdirected at hdirected ⊢
    simpa [hfactor, hfactor.ne', mul_neg_iff, hpos, hpos.not_gt, mul_pos_iff_of_pos_right hpos] using hdirected
  · rw [Induction.runs_iff]
    refine ⟨fun k hk => ?_, ?_⟩
    · exact (hgoes k hk.le).trans (decide_eq_true hk)
    · exact (hgoes _ le_rfl).trans (decide_eq_false (Nat.lt_irrefl _))
  · exact (Nat.div_le_self trip factor).trans_lt hlt

/-! ## All loops -/

/--
What unrolling leaves of loops, with the number of those that were unrolled. A loop that has at most as many
rounds as the factor says is left out. The rounds of another one are those that were copied in front of it, and
as often as the factor says the rounds that its counter has now.
-/
inductive Leaves (factor : Nat) : List LoopInfo → Nat → List LoopInfo → Prop where
  | nil : Leaves factor [] 0 []
  | kept (l : LoopInfo) {rest left : List LoopInfo} {n : Nat} (h : Leaves factor rest n left) :
    Leaves factor (l :: rest) n (l :: left)
  | replaced {l : LoopInfo} {i : Induction} {trip : Nat} (hi : l.induction = some i)
    (htrip : i.tripCount? = some trip) (hle : trip ≤ factor) {rest left : List LoopInfo} {n : Nat}
    (h : Leaves factor rest n left) : Leaves factor (l :: rest) (n + 1) left
  | unrolled {l : LoopInfo} {i i' : Induction} {trip : Nat} (hi : l.induction = some i)
    (htrip : i.tripCount? = some trip) (hlt : factor < trip)
    (hi' : i' = { i with init := i.init + (trip % factor : Nat) * i.step, step := i.step * factor })
    (htrip' : i'.tripCount? = some ((trip - trip % factor) / factor))
    (hrounds : trip % factor + factor * ((trip - trip % factor) / factor) = trip)
    {rest left : List LoopInfo} {n : Nat} (h : Leaves factor rest n left) :
    Leaves factor (l :: rest) (n + 1) ({ l with induction := some i' } :: left)

theorem counter_of_candidate? {f : Function} {l : LoopInfo} {c : Candidate} (h : candidate? f l = some c) :
  l.induction = some c.induction ∧ c.induction.tripCount? = some c.trip
  := by
  obtain ⟨i, hi, h⟩ := Option.bind_eq_some_iff.mp h
  obtain ⟨trip, htrip, h⟩ := Option.bind_eq_some_iff.mp h
  split at h
  · split at h
    · obtain rfl := Option.some.inj h
      exact ⟨hi, htrip⟩
    · cases h
  · cases h

theorem leaves_loops {factor : Nat} (hfactor : 0 < factor) (rest done : List LoopInfo) (f : Function) :
  ∃ left, (loops factor done rest f).2.loops = done ++ left ∧ Leaves factor rest (loops factor done rest f).1 left
  := by
  induction rest generalizing done f with
  | nil => exact ⟨[], (List.append_nil done).symm, .nil⟩
  | cons l rest ih =>
    have hkept : ∃ left, (loops factor (done ++ [l]) rest f).2.loops = done ++ left
        ∧ Leaves factor (l :: rest) (loops factor (done ++ [l]) rest f).1 left := by
      obtain ⟨left, hloops, hleaves⟩ := ih (done ++ [l]) f
      exact ⟨l :: left, by rw [hloops, List.append_assoc, List.singleton_append], .kept l hleaves⟩
    rw [loops]
    split
    · exact hkept
    · next c hc =>
      obtain ⟨hi, htrip⟩ := counter_of_candidate? hc
      split
      · next hle =>
        obtain ⟨left, hloops, hleaves⟩ := ih done (replaceLoop l c f)
        exact ⟨left, hloops, .replaced hi htrip hle hleaves⟩
      · next hlt =>
        simp only
        split
        · exact hkept
        · next i' hi' =>
          obtain ⟨left, hloops, hleaves⟩ := ih (done ++ [{ l with induction := some i' }])
            (fillBody l c factor (appendRounds c l.preheader (c.trip % factor) f))
          have hwhole : (c.trip - c.trip % factor) / factor = c.trip / factor := Nat.div_eq_sub_mod_div.symm
          refine ⟨_, by rw [hloops, List.append_assoc, List.singleton_append], .unrolled hi htrip
            (Nat.lt_of_not_le hlt) (induction?_eq_some hi') ?_ ?_ hleaves⟩
          · rw [hwhole]
            exact tripCount?_of_induction? hfactor htrip hi'
          · rw [hwhole]
            exact Nat.mod_add_div c.trip factor

end Unroll

/--
The number of rounds that is computed for a loop is how often it runs over the integers. If none is computed,
the loop does not end, or it runs too often for 64 bits, or it is not entered and its step is zero or leads
away from the bound. The values that are computed for the counter are those of its rounds, and what is left of
loops after unrolling runs through the rounds that were not copied in front.
-/
theorem exact_tripCount :
  (∀ i : Induction, i.Compares →
      (∀ t, i.tripCount? = some t → i.Runs i.init t)
      ∧ (i.tripCount? = none → (∀ t, ¬i.Runs i.init t) ∨ (∃ t, 2 ^ 64 ≤ t ∧ i.Runs i.init t)
        ∨ i.goesOn i.init = false ∧ i.Misdirected)
      ∧ ∀ k v, i.valueAt? k = some v → v = i.init + k * i.step)
    ∧ ∀ factor f, 2 ≤ factor →
      Unroll.Leaves factor f.loops (Unroll.loops factor [] f.loops f).1 (Unroll.loops factor [] f.loops f).2.loops
  := by
  refine ⟨fun i hcmp => ⟨fun t htrip => ?_, fun hnone => ?_, fun k v hv => ?_⟩, fun factor f hfactor => ?_⟩
  · exact (Induction.runs_of_tripCount? htrip).1
  · exact Induction.endless_of_tripCount? hcmp hnone
  · exact Induction.valueAt?_eq_some hv
  · obtain ⟨left, hloops, hleaves⟩ := Unroll.leaves_loops (show 0 < factor by omega) f.loops [] f
    rw [hloops]
    exact hleaves

/-- A counter that goes down to the bound in four rounds. -/
def fourRounds : Induction := ⟨0, 10, 0, -3, .gt⟩

/-- A loop that only has a test, in the form that can be unrolled. -/
def emptyRounds : Function where
  name := "f"
  params := []
  result := .none
  blocks :=
    [ ⟨[], [], .jump 1 []⟩, ⟨[], [⟨.set 0 (.const (.bool true)), none⟩], .branch 0 2 4⟩, ⟨[], [], .jump 3 []⟩,
      ⟨[], [], .jump 1 []⟩, ⟨[], [], .ret none⟩ ]
  entry := 0
  varTypes := [.bool]
  slots := [⟨some "i", .int 64⟩]
  loops := [⟨0, 1, 3, 4, [1, 2, 3], some fourRounds⟩]
  flags := .none

theorem exact_fourRounds :
  fourRounds.Compares ∧ fourRounds.tripCount? = some 4 ∧ fourRounds.Runs 10 4
    ∧ fourRounds.valueAt? 3 = some 1 ∧ (1 : Int) = 10 + (3 : Nat) * -3
    ∧ Unroll.Leaves 3 [⟨0, 1, 3, 4, [1, 2, 3], some fourRounds⟩] 1
      [⟨0, 1, 3, 4, [1, 2, 3], some ⟨0, 7, 0, -9, .gt⟩⟩]
  := by
  have hcmp : fourRounds.Compares := .inr (.inr (.inl rfl))
  obtain ⟨hinductions, hloops⟩ := exact_tripCount
  obtain ⟨hruns, -, hvalues⟩ := hinductions fourRounds hcmp
  exact ⟨hcmp, rfl, hruns 4 rfl, rfl, hvalues 3 1 rfl, hloops 3 emptyRounds (by decide)⟩

end FormCompiler.Flow
