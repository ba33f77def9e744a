import FormCompiler.Diagnostic.Queue
import Mathlib

/-!
# Queues of diagnostics

A queue may refuse errors, but never the first one: what refuses an error, the limit or an earlier parser error on
the same line, comes from an error that has been accepted. So a queue that is `Sound` has errors as soon as one is
offered to it (`Queue.Sound.extend`). Its report is in the order of the text, and holds an error if and only if the
queue has accepted one.

What a queue does with a diagnostic depends only on the `History` of those that it has been offered before, with its
answers: from these one can tell whether it refuses the next one, what it reports and how many errors were too many
(`Queue.flush_offer`). Once it has reported, all that is forgotten.
-/

namespace FormCompiler

/-- A position is not after another one in the text. -/
def Position.NotAfter (p q : Position) : Prop := p.line < q.line ∨ p.line = q.line ∧ p.column ≤ q.column

theorem Position.NotAfter.refl (p : Position) :
  p.NotAfter p
  := .inr ⟨rfl, Nat.le_refl _⟩

namespace Reported

variable {r s t : Reported}

/-- The order of a report is that of the text, and at one position, errors come first. -/
theorem notAfter_iff :
  r.notAfter s = true ↔ r.position.line < s.position.line ∨ r.position.line = s.position.line
    ∧ (r.position.column < s.position.column ∨ r.position.column = s.position.column
      ∧ (s.diagnostic.isError = true → r.diagnostic.isError = true))
  := by
  unfold notAfter
  split
  · next hline => simp [hline]
  · next hline =>
    have hline : r.position.line = s.position.line := Decidable.not_not.mp hline
    split
    · next hcolumn => simp [hline, hcolumn]
    · next hcolumn =>
      have hcolumn : r.position.column = s.position.column := Decidable.not_not.mp hcolumn
      cases hs : s.diagnostic.isError <;> simp [hline, hcolumn]

end Reported

namespace Queue

variable {q : Queue} {d : Diagnostic}

/-- What becomes of a diagnostic: the answer, and the queue behind it. -/
inductive Pushed (q : Queue) (d : Diagnostic) : Bool × Queue → Prop
  | dropped (herror : d.isError = true) (hlimit : q.limitReached = true) :
    Pushed q d (false, { q with dropped := q.dropped + 1 })
  | repeated (herror : d.isError = true) (hlimit : q.limitReached = false) (hline : q.repeatsLine d = true) :
    Pushed q d (false, q)
  | error (herror : d.isError = true) (hlimit : q.limitReached = false) (hline : q.repeatsLine d = false) :
    Pushed q d (true, { q with
      accepted := q.accepted ++ [⟨d, q.locate d⟩]
      errorCount := q.errorCount + 1
      syntaxLine := if d.code.family = .parser then some (q.locate d).line else q.syntaxLine })
  | other (herror : d.isError = false) :
    Pushed q d (true, { q with accepted := q.accepted ++ [⟨d, q.locate d⟩] })

theorem pushed_push (q : Queue) (d : Diagnostic) :
  Pushed q d (q.push d)
  := by
  unfold push
  dsimp only
  split
  · next herror =>
    split
    · next hlimit => exact .dropped herror hlimit
    · next hlimit =>
      split
      · next hline => exact .repeated herror (Bool.eq_false_iff.mpr hlimit) hline
      · next hline => exact .error herror (Bool.eq_false_iff.mpr hlimit) (Bool.eq_false_iff.mpr hline)
  · next herror => exact .other (Bool.eq_false_iff.mpr herror)

/-- What holds of a queue: it counts its errors, and has some if it refuses others. -/
structure Sound (q : Queue) : Prop where
  count : q.errorCount = q.accepted.countP (·.diagnostic.isError)
  limit : 0 < q.config.errorLimit → q.errorCount ≤ q.config.errorLimit
  dropped : q.dropped ≠ 0 → q.hasErrors = true
  line : q.syntaxLine.isSome = true → q.hasErrors = true

theorem hasErrors_of_limitReached (h : q.limitReached = true) :
  q.hasErrors = true
  := by
  rw [limitReached, Bool.and_eq_true, decide_eq_true_eq, decide_eq_true_eq] at h
  exact decide_eq_true (Nat.lt_of_lt_of_le h.1 h.2)

namespace Sound

variable (h : q.Sound)

include h

theorem push (d : Diagnostic) :
  (q.push d).2.Sound ∧ (q.push d).2.config = q.config
    ∧ ((q.push d).2.hasErrors = true ↔ q.hasErrors = true ∨ d.isError = true)
  := by
  have hpushed := pushed_push q d
  generalize q.push d = next at hpushed ⊢
  cases hpushed with
  | dropped herror hlimit =>
    have hsome := hasErrors_of_limitReached hlimit
    exact ⟨⟨h.count, h.limit, fun _ => hsome, h.line⟩, rfl, iff_of_true hsome (.inl hsome)⟩
  | repeated herror hlimit hline =>
    rw [repeatsLine, Bool.and_eq_true, beq_iff_eq] at hline
    have hsome := h.line (by rw [hline.2]; rfl)
    exact ⟨h, rfl, iff_of_true hsome (.inl hsome)⟩
  | error herror hlimit hline =>
    refine ⟨⟨?_, fun hpos => ?_, fun _ => rfl, fun _ => rfl⟩, rfl, iff_of_true rfl (.inr herror)⟩
    · dsimp only
      rw [List.countP_append, h.count, List.countP_singleton, if_pos herror]
    · dsimp only at hpos ⊢
      rw [limitReached, decide_eq_true hpos, Bool.true_and, decide_eq_false_iff_not] at hlimit
      omega
  | other herror =>
    refine ⟨⟨?_, h.limit, h.dropped, h.line⟩, rfl, by rw [herror]; simp [hasErrors]⟩
    dsimp only
    rw [List.countP_append, h.count, List.countP_singleton, herror, if_neg (by simp), Nat.add_zero]

theorem extend (ds : List Diagnostic) :
  (q.extend ds).Sound ∧ (q.extend ds).config = q.config
    ∧ ((q.extend ds).hasErrors = true ↔ q.hasErrors = true ∨ ∃ d ∈ ds, d.isError = true)
  := by
  induction ds generalizing q with
  | nil => exact ⟨h, rfl, by simp [Queue.extend]⟩
  | cons d ds ih =>
    obtain ⟨hsound, hconfig, herrors⟩ := h.push d
    obtain ⟨hsound', hconfig', herrors'⟩ := ih hsound
    refine ⟨hsound', hconfig'.trans hconfig, herrors'.trans ?_⟩
    simp only [herrors, or_assoc, List.mem_cons, exists_eq_or_imp]

end Sound

end Queue

/-! ## Stable sorting -/

/-- A list has been put in the order of a key, where what has the same key has stayed in order. -/
structure IsStableSort {α κ : Type} [LE κ] [DecidableEq κ] (key : α → κ) (list sorted : List α) : Prop where
  perm : sorted.Perm list
  ordered : sorted.Pairwise fun a b => key a ≤ key b
  stable : ∀ k, (sorted.filter fun a => key a = k) = list.filter fun a => key a = k

theorem isStableSort_mergeSort
    {α κ : Type} [LinearOrder κ] {key : α → κ} {le : α → α → Bool} (h : ∀ a b, le a b = true ↔ key a ≤ key b) (list : List α) :
  IsStableSort key list (list.mergeSort le)
  := by
  have htrans : ∀ a b c, le a b = true → le b c = true → le a c = true := fun a b c hab hbc =>
    (h a c).mpr (le_trans ((h a b).mp hab) ((h b c).mp hbc))
  have htotal : ∀ a b, (le a b || le b a) = true := fun a b => by
    rw [Bool.or_eq_true, h, h]
    exact le_total _ _
  have hperm := List.mergeSort_perm list le
  refine ⟨hperm, (List.pairwise_mergeSort htrans htotal list).imp fun {a b} hab => (h a b).mp hab, fun k => ?_⟩
  -- what has one key is in order, and so it is a part of the sorted list too
  have hsame : (list.filter fun a => key a = k).Pairwise fun a b => le a b = true := by
    refine List.pairwise_of_forall_mem_list fun a ha b hb => ?_
    rw [List.mem_filter, decide_eq_true_eq] at ha hb
    rw [h, ha.2, hb.2]
  have hpart := (List.sublist_mergeSort htrans htotal hsame List.filter_sublist).filter fun a => key a = k
  rw [List.filter_filter] at hpart
  simp only [Bool.and_self] at hpart
  exact (hpart.eq_of_length (hperm.filter _).length_eq.symm).symm

/-- The order of a report: by line, by column, errors first. -/
def Reported.key (r : Reported) : ℕ ×ₗ ℕ ×ₗ Bool :=
  toLex (r.position.line, toLex (r.position.column, !r.diagnostic.isError))

theorem Reported.notAfter_iff_key (r s : Reported) :
  r.notAfter s = true ↔ r.key ≤ s.key
  := by
  have hfirst : ¬ true ≤ false := by decide
  rw [notAfter_iff, key, key, Prod.Lex.toLex_le_toLex, Prod.Lex.toLex_le_toLex]
  cases r.diagnostic.isError <;> cases s.diagnostic.isError <;> simp [hfirst]

/-! ## Histories -/

/-- The position of a diagnostic in a text; the start of the text if it has no primary label. -/
def Diagnostic.positionIn (source : String) (d : Diagnostic) : Position :=
  match d.primarySpan? with
  | some span => (LineTable.ofSource source).position span.start
  | none => ⟨1, 1⟩

/-- What a queue has been offered, each diagnostic with the answer, the first one first. -/
abbrev History := List (Diagnostic × Bool)

namespace History

/-- The diagnostics that were accepted. -/
def accepted (history : History) : List Diagnostic := (history.filter (·.2)).map (·.1)

/-- As many errors have been accepted as the limit allows. -/
def isAtLimit (history : History) (config : Queue.Config) : Bool :=
  config.errorLimit != 0 && history.accepted.countP (·.isError) == config.errorLimit

/-- The last parser error that was accepted. -/
def lastSyntaxError? (history : History) : Option Diagnostic :=
  (history.accepted.filter fun d => d.isError && d.code.family == .parser).getLast?

/-- The number of errors that were refused because of the limit. -/
def beyondLimit (history : History) (config : Queue.Config) : Nat :=
  history.zipIdx.countP fun entry => !entry.1.2 && isAtLimit (history.take entry.2) config

/--
After a history, an error is refused if the limit has been reached or else, with deduplication, if it is a parser
error on the line of the last parser error that was accepted.
-/
def Refuses (history : History) (source : String) (config : Queue.Config) (d : Diagnostic) : Prop :=
  d.isError = true
  ∧ (history.isAtLimit config = true
    ∨ history.isAtLimit config = false ∧ config.deduplicate = true ∧ d.code.family = .parser
      ∧ ∃ last, history.lastSyntaxError? = some last ∧ (last.positionIn source).line = (d.positionIn source).line)

theorem accepted_append (history : History) (d : Diagnostic) (answer : Bool) :
  accepted (history ++ [(d, answer)]) = if answer = true then history.accepted ++ [d] else history.accepted
  := by
  rw [accepted, List.filter_append, List.map_append]
  cases answer <;> simp [accepted]

theorem beyondLimit_append (history : History) (config : Queue.Config) (d : Diagnostic) (answer : Bool) :
  beyondLimit (history ++ [(d, answer)]) config
    = history.beyondLimit config + if (!answer && history.isAtLimit config) = true then 1 else 0
  := by
  have hbefore : ∀ x ∈ history.zipIdx, (history ++ [(d, answer)]).take x.2 = history.take x.2 := fun x hx =>
    List.take_append_of_le_length (Nat.le_of_lt (List.snd_lt_of_mem_zipIdx hx))
  rw [beyondLimit, List.zipIdx_append, List.countP_append, List.zipIdx_singleton, List.countP_singleton, Nat.zero_add,
    List.take_left' rfl]
  congr 1
  exact List.countP_congr fun x hx => by rw [hbefore x hx]

theorem lastSyntaxError?_append (history : History) (d : Diagnostic) (answer : Bool) :
  lastSyntaxError? (history ++ [(d, answer)])
    = if (answer && (d.isError && d.code.family == .parser)) = true then some d else history.lastSyntaxError?
  := by
  rw [lastSyntaxError?, accepted_append]
  cases answer with
  | false => rfl
  | true =>
    rw [if_pos rfl, List.filter_append, Bool.true_and]
    cases hparser : d.isError && d.code.family == .parser with
    | false => simp [hparser, lastSyntaxError?]
    | true => simp [hparser]

end History

namespace Queue

/-- The answers of a queue to the diagnostics that it is offered in turn, and the queue behind them. -/
def offer (q : Queue) : List Diagnostic → List Bool × Queue
  | [] => ([], q)
  | d :: ds => ((q.push d).1 :: ((q.push d).2.offer ds).1, ((q.push d).2.offer ds).2)

/-- A queue has been offered a history since it was new. -/
structure Holds (q : Queue) (source : String) (config : Config) (history : History) : Prop where
  config_eq : q.config = config
  lines_eq : q.lines = .ofSource source
  accepted_eq : q.accepted = history.accepted.map fun d => ⟨d, d.positionIn source⟩
  errorCount_eq : q.errorCount = history.accepted.countP (·.isError)
  bounded : config.errorLimit ≠ 0 → q.errorCount ≤ config.errorLimit
  dropped_eq : q.dropped = history.beyondLimit config
  syntaxLine_eq : q.syntaxLine = history.lastSyntaxError?.map fun d => (d.positionIn source).line

theorem holds_ofSource (source : String) (config : Config) :
  (ofSource source config).Holds source config []
  := ⟨rfl, rfl, rfl, rfl, fun _ => Nat.zero_le _, rfl, rfl⟩

namespace Holds

variable {q : Queue} {source : String} {config : Config} {history : History} (h : q.Holds source config history)

include h

theorem locate_eq (d : Diagnostic) :
  q.locate d = d.positionIn source
  := by
  rw [Diagnostic.positionIn, ← h.lines_eq]
  rfl

theorem limitReached_eq :
  q.limitReached = history.isAtLimit config
  := by
  have hcount := h.errorCount_eq
  have hbounded := h.bounded
  rw [Bool.eq_iff_iff, limitReached, History.isAtLimit, h.config_eq, hcount]
  simp only [Bool.and_eq_true, decide_eq_true_eq, bne_iff_ne, beq_iff_eq]
  omega

theorem repeatsLine_eq_true {d : Diagnostic} :
  q.repeatsLine d = true ↔ config.deduplicate = true ∧ d.code.family = .parser
    ∧ ∃ last, history.lastSyntaxError? = some last ∧ (last.positionIn source).line = (d.positionIn source).line
  := by
  rw [repeatsLine, h.config_eq, h.syntaxLine_eq, h.locate_eq]
  simp only [Bool.and_eq_true, beq_iff_eq, Option.map_eq_some_iff]
  tauto

theorem refuse (d : Diagnostic) :
  Queue.Holds { q with dropped := q.dropped + if history.isAtLimit config = true then 1 else 0 } source config
    (history ++ [(d, false)])
  := by
  constructor
  case config_eq => exact h.config_eq
  case lines_eq => exact h.lines_eq
  case bounded => exact h.bounded
  case accepted_eq => simpa [History.accepted_append] using h.accepted_eq
  case errorCount_eq => simpa [History.accepted_append] using h.errorCount_eq
  case dropped_eq => simp [History.beyondLimit_append, h.dropped_eq]
  case syntaxLine_eq => simpa [History.lastSyntaxError?_append] using h.syntaxLine_eq

theorem accept {d : Diagnostic} (hlimit : d.isError = true → q.limitReached = false) :
  Queue.Holds
    { q with
      accepted := q.accepted ++ [⟨d, q.locate d⟩]
      errorCount := q.errorCount + if d.isError = true then 1 else 0
      syntaxLine := if (d.isError && d.code.family == .parser) = true then some (q.locate d).line else q.syntaxLine }
    source config (history ++ [(d, true)])
  := by
  constructor
  case config_eq => exact h.config_eq
  case lines_eq => exact h.lines_eq
  case accepted_eq => simp [History.accepted_append, h.accepted_eq, h.locate_eq]
  case errorCount_eq => simp [History.accepted_append, List.countP_append, List.countP_singleton, h.errorCount_eq]
  case dropped_eq => simpa [History.beyondLimit_append] using h.dropped_eq
  case syntaxLine_eq =>
    rw [History.lastSyntaxError?_append, Bool.true_and]
    dsimp only
    split_ifs
    · rw [Option.map_some, h.locate_eq]
    · exact h.syntaxLine_eq
  case bounded =>
    intro hpos
    have hbounded := h.bounded hpos
    dsimp only
    split
    · next herror =>
      have hbelow := hlimit herror
      rw [limitReached, h.config_eq, Bool.and_eq_false_iff, decide_eq_false_iff_not, decide_eq_false_iff_not] at hbelow
      omega
    · exact hbounded

/-- A queue answers as its history tells, and goes on to hold what it has been offered. -/
theorem push (d : Diagnostic) :
  ((q.push d).1 = false ↔ history.Refuses source config d)
  ∧ (q.push d).2.Holds source config (history ++ [(d, (q.push d).1)])
  := by
  have hlimit_eq := h.limitReached_eq
  have hline_iff := @repeatsLine_eq_true q source config history h d
  have hrefuse := h.refuse d
  have hpushed := pushed_push q d
  generalize q.push d = next at hpushed ⊢
  cases hpushed with
  | dropped herror hlimit =>
    rw [hlimit_eq] at hlimit
    rw [if_pos hlimit] at hrefuse
    exact ⟨iff_of_true rfl ⟨herror, .inl hlimit⟩, hrefuse⟩
  | repeated herror hlimit hline =>
    rw [hlimit_eq] at hlimit
    rw [if_neg (by simp [hlimit])] at hrefuse
    exact ⟨iff_of_true rfl ⟨herror, .inr ⟨hlimit, hline_iff.mp hline⟩⟩, hrefuse⟩
  | error herror hlimit hline =>
    refine ⟨iff_of_false nofun ?_, by simpa [herror] using h.accept (d := d) fun _ => hlimit⟩
    rintro ⟨-, hreached | ⟨-, hrepeats⟩⟩
    · rw [← hlimit_eq, hlimit] at hreached
      cases hreached
    · rw [hline_iff.mpr hrepeats] at hline
      cases hline
  | other herror =>
    refine ⟨iff_of_false nofun fun hrefuses => ?_, ?_⟩
    · rw [hrefuses.1] at herror
      cases herror
    · simpa [herror] using h.accept (d := d) fun htrue => by rw [htrue] at herror; cases herror

/-- What holds at every step of an offer. -/
theorem offer (ds : List Diagnostic) :
  (q.offer ds).1.length = ds.length
  ∧ (∀ i d, ds[i]? = some d →
      ((q.offer ds).1[i]? = some false ↔ (history ++ (ds.zip (q.offer ds).1).take i).Refuses source config d))
  ∧ (q.offer ds).2.Holds source config (history ++ ds.zip (q.offer ds).1)
  := by
  induction ds generalizing q history with
  | nil => exact ⟨rfl, nofun, by simpa [Queue.offer] using h⟩
  | cons d ds ih =>
    obtain ⟨hanswer, hnext⟩ := h.push d
    obtain ⟨hlength, hanswers, hholds⟩ := ih hnext
    rw [Queue.offer, List.zip_cons_cons]
    refine ⟨by simp [hlength], fun i e hi => ?_, by simpa using hholds⟩
    cases i with
    | zero =>
      obtain rfl : d = e := by simpa using hi
      simpa using hanswer
    | succ i => simpa using hanswers i e (by simpa using hi)

end Holds

/-- What a new queue is offered, with its answers. -/
def offered (source : String) (config : Config) (ds : List Diagnostic) : History :=
  ds.zip ((ofSource source config).offer ds).1

/--
The contract of a queue. Whether it refuses a diagnostic is told by what it has been offered before
(`History.Refuses`). Its report is what it has accepted, sorted by line, by column and errors first, where equal ones
stay in order. Behind that there is one more entry if the limit has refused errors, which says how many. After the
report the queue is as it was when it was new.
-/
theorem flush_offer (source : String) (config : Config) (ds : List Diagnostic) :
  ((ofSource source config).offer ds).1.length = ds.length
  ∧ (∀ i d, ds[i]? = some d →
      (((ofSource source config).offer ds).1[i]? = some false
        ↔ History.Refuses ((offered source config ds).take i) source config d))
  ∧ (∃ sorted,
      IsStableSort Reported.key ((offered source config ds).accepted.map fun d => ⟨d, d.positionIn source⟩) sorted
      ∧ ((ofSource source config).offer ds).2.flush.1 = sorted
        ++ if (offered source config ds).beyondLimit config = 0 then []
          else [⟨.tooManyErrors config.errorLimit ((offered source config ds).beyondLimit config),
            (sorted.getLast?.map (·.position)).getD ⟨1, 1⟩⟩])
  ∧ ((ofSource source config).offer ds).2.flush.2 = ofSource source config
  := by
  obtain ⟨hlength, hanswers, hholds⟩ := (holds_ofSource source config).offer ds
  rw [List.nil_append, ← offered] at hholds
  refine ⟨hlength, hanswers, ⟨_, isStableSort_mergeSort Reported.notAfter_iff_key _, ?_⟩, ?_⟩
  · rw [flush, ← hholds.accepted_eq, hholds.dropped_eq, hholds.config_eq]
  · have hqueue := congrArg₂ (fun config lines => Queue.mk config lines [] 0 0 none) hholds.config_eq hholds.lines_eq
    exact hqueue

end Queue

end FormCompiler
