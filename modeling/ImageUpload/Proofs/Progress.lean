import Mathlib.Data.List.Basic
import ImageUpload.Progress.Ticker

/-
What the records of a session count.

An estimator sees reports, ticks and receives in some order.  What it has counted, together with
what waits in its inbox, grows by each report and by nothing else (`known_play`), and so a tick
shows the reports made before it (`map_processed_offered`).  The queue takes from the records that
the ticks offer and hands them on in order (`kept_sublist`).  It forgets none of those it took
(`records_prefix_kept`), and it refuses one only when it is full (`records_tick`).

A clock decides when the ticks fall.  `Ticker.history` lists what a run does to its estimator, and
`Ticker.run_follows` is the step from the one to the other.  No tick that is due is passed over
(`now_lt_due_settle`).  The main result is `Ticker.account_run`.
-/

namespace ImageUpload

/-- A running count keeps the sum of what was added, up to the cap. -/
theorem addCapped_min (n bytes : Nat) :
    addCapped (min n (2 ^ 64 - 1)) bytes = min (n + bytes) (2 ^ 64 - 1) := by
  unfold addCapped
  omega

namespace Estimator

/-- What can happen to an estimator. -/
inductive Event where
  | report (bytes : Nat)
  | tick (now : Nat)
  | receive

namespace Event

def bytes? : Event → Option Nat
  | report bytes => some bytes
  | _ => none

/-- The reports among some events, in order. -/
def reports (events : List Event) : List Nat :=
  events.filterMap bytes?

/-- What each tick has to show, when `n` bytes were in place before. -/
def tallies : Nat → List Event → List Nat
  | _, [] => []
  | n, report bytes :: rest => tallies (n + bytes) rest
  | n, tick _ :: rest => min n (2 ^ 64 - 1) :: tallies n rest
  | n, receive :: rest => tallies n rest

theorem reports_append (a b : List Event) : reports (a ++ b) = reports a ++ reports b :=
  List.filterMap_append

theorem le_of_mem_tallies {n : Nat} {events : List Event} :
    ∀ m ∈ tallies n events, min n (2 ^ 64 - 1) ≤ m ∧
      m ≤ min (n + (reports events).sum) (2 ^ 64 - 1) := by
  induction events generalizing n with
  | nil => exact fun m hm => absurd hm List.not_mem_nil
  | cons event rest ih =>
    intro m hm
    cases event with
    | report bytes =>
      have hsum : (reports (report bytes :: rest)).sum = bytes + (reports rest).sum := rfl
      obtain ⟨hlow, hhigh⟩ := ih m hm
      omega
    | tick now =>
      rcases List.mem_cons.mp hm with rfl | hm
      · exact ⟨Nat.le_refl _, by omega⟩
      · exact ih m hm
    | receive => exact ih m hm

theorem tallies_ascending (n : Nat) (events : List Event) :
    (tallies n events).Pairwise (· ≤ ·) := by
  induction events generalizing n with
  | nil => exact .nil
  | cons event rest ih =>
    cases event with
    | report bytes => exact ih (n + bytes)
    | tick now => exact .cons (fun m hm => (le_of_mem_tallies m hm).1) (ih n)
    | receive => exact ih n

end Event

/-! ## One event -/

/-- Take the oldest waiting record, if there is one. -/
def take (e : Estimator) : List ProgressRecord × Estimator :=
  match e.receive with
  | none => ([], e)
  | some (r, e) => ([r], e)

/-- The records that an event hands out, and the estimator after it. -/
def apply (e : Estimator) : Event → List ProgressRecord × Estimator
  | .report bytes => ([], e.report bytes)
  | .tick now => ([], e.tick now)
  | .receive => e.take

/-- What an estimator knows of, counted or not. -/
def known (e : Estimator) : Nat :=
  e.inbox.foldl addCapped e.processed

theorem processed_stop (e : Estimator) : e.stop.processed = e.known := rfl

theorem known_report (e : Estimator) (bytes : Nat) :
    (e.report bytes).known = addCapped e.known bytes :=
  List.foldl_append

theorem known_tick (e : Estimator) (now : Nat) : (e.tick now).known = e.known := by
  simp only [tick, sample]
  split <;> rfl

theorem processed_record_tick (e : Estimator) (now : Nat) :
    (e.tick now).record.processed = e.known := by
  simp only [tick, sample]
  split <;> rfl

/-- The record of a tick finds room unless the queue is full. -/
theorem records_tick (e : Estimator) (now : Nat) :
    (e.tick now).records =
      if e.records.length < depth then e.records ++ [(e.tick now).record] else e.records := by
  have hrecord : (e.tick now).record =
      { e.settle with speed := e.settle.speed.add e.known now }.record := by
    simp only [tick, sample]
    split <;> rfl
  rw [hrecord]
  simp only [tick, sample]
  exact apply_ite records ..

theorem take_cases (e : Estimator) :
    (e.records = [] ∧ e.take = ([], e)) ∨
      ∃ r rest, e.records = r :: rest ∧ e.take = ([r], { e with records := rest }) := by
  unfold take receive
  cases h : e.records with
  | nil => exact .inl ⟨rfl, rfl⟩
  | cons r rest => exact .inr ⟨r, rest, rfl, rfl⟩

theorem known_take (e : Estimator) : e.take.2.known = e.known := by
  rcases e.take_cases with ⟨_, h⟩ | ⟨r, rest, _, h⟩
  · rw [h]
  · rw [h]
    rfl

/-- What is taken and what is left make up the queue. -/
theorem take_append (e : Estimator) : e.take.1 ++ e.take.2.records = e.records := by
  rcases e.take_cases with ⟨_, h⟩ | ⟨r, rest, hr, h⟩
  · rw [h]
    rfl
  · rw [h, hr]
    rfl

/-! ## A run of events -/

/-- The records that are handed out, and the estimator at the end. -/
def play (e : Estimator) : List Event → List ProgressRecord × Estimator
  | [] => ([], e)
  | event :: rest =>
    let (taken, e) := e.apply event
    let (later, e) := e.play rest
    (taken ++ later, e)

/-- The records handed out, and then those that still wait. -/
def kept (e : Estimator) (events : List Event) : List ProgressRecord :=
  (e.play events).1 ++ (e.play events).2.records

/-- The record of each tick, whether it finds room or not. -/
def offered (e : Estimator) : List Event → List ProgressRecord
  | [] => []
  | .tick now :: rest => (e.tick now).record :: (e.tick now).offered rest
  | event :: rest => (e.apply event).2.offered rest

theorem play_append (e : Estimator) (a b : List Event) :
    e.play (a ++ b) =
      ((e.play a).1 ++ ((e.play a).2.play b).1, ((e.play a).2.play b).2) := by
  induction a generalizing e with
  | nil => rfl
  | cons event rest ih => simp only [List.cons_append, play, ih, List.append_assoc]

theorem kept_cons (e : Estimator) (event : Event) (rest : List Event) :
    e.kept (event :: rest) = (e.apply event).1 ++ (e.apply event).2.kept rest :=
  List.append_assoc ..

theorem kept_append (e : Estimator) (a b : List Event) :
    e.kept (a ++ b) = (e.play a).1 ++ (e.play a).2.kept b := by
  simp only [kept, play_append, List.append_assoc]

/-- What is known at the end are the reports of the whole run. -/
theorem known_play {e : Estimator} {n : Nat} (hn : e.known = min n (2 ^ 64 - 1))
    (events : List Event) :
    (e.play events).2.known = min (n + (Event.reports events).sum) (2 ^ 64 - 1) := by
  induction events generalizing e n with
  | nil => exact hn
  | cons event rest ih =>
    cases event with
    | report bytes =>
      have hsum : (Event.reports (.report bytes :: rest)).sum =
          bytes + (Event.reports rest).sum := rfl
      have hknown : (e.report bytes).known = min (n + bytes) (2 ^ 64 - 1) := by
        rw [known_report, hn, addCapped_min]
      rw [hsum, ← Nat.add_assoc]
      exact ih hknown
    | tick now => exact ih ((known_tick e now).trans hn)
    | receive => exact ih ((known_take e).trans hn)

/-- Each tick shows the reports made before it. -/
theorem map_processed_offered {e : Estimator} {n : Nat} (hn : e.known = min n (2 ^ 64 - 1))
    (events : List Event) :
    (e.offered events).map ProgressRecord.processed = Event.tallies n events := by
  induction events generalizing e n with
  | nil => rfl
  | cons event rest ih =>
    cases event with
    | report bytes =>
      have hknown : (e.report bytes).known = min (n + bytes) (2 ^ 64 - 1) := by
        rw [known_report, hn, addCapped_min]
      exact ih hknown
    | tick now =>
      have hshown : (e.tick now).record.processed = min n (2 ^ 64 - 1) :=
        (processed_record_tick e now).trans hn
      exact congr (congrArg List.cons hshown) (ih ((known_tick e now).trans hn))
    | receive => exact ih ((known_take e).trans hn)

/-- The queue hands on what it was offered, and in that order. -/
theorem kept_sublist (e : Estimator) (events : List Event) :
    (e.kept events).Sublist (e.records ++ e.offered events) := by
  induction events generalizing e with
  | nil => exact List.sublist_append_left ..
  | cons event rest ih =>
    rw [kept_cons]
    cases event with
    | report bytes => exact ih (e.report bytes)
    | tick now =>
      have htail := ih (e.tick now)
      rw [records_tick] at htail
      refine htail.trans ?_
      split
      · rw [List.append_assoc]
        exact List.Sublist.refl _
      · exact (List.Sublist.refl _).append (List.sublist_cons_self ..)
    | receive =>
      have hsplit := take_append e
      change (e.take.1 ++ e.take.2.kept rest).Sublist (e.records ++ e.take.2.offered rest)
      rw [← hsplit, List.append_assoc]
      exact (List.Sublist.refl _).append (ih e.take.2)

/-- A record that waits is not lost. -/
theorem records_prefix_kept (e : Estimator) (events : List Event) :
    e.records <+: e.kept events := by
  induction events generalizing e with
  | nil => exact List.prefix_rfl
  | cons event rest ih =>
    rw [kept_cons]
    cases event with
    | report bytes => exact ih (e.report bytes)
    | tick now =>
      refine List.IsPrefix.trans ?_ (ih (e.tick now))
      rw [records_tick]
      split
      · exact List.prefix_append ..
      · exact List.prefix_rfl
    | receive =>
      have hsplit := take_append e
      change e.records <+: e.take.1 ++ e.take.2.kept rest
      rw [← hsplit]
      exact (List.prefix_append_right_inj _).mpr (ih e.take.2)

/-- No more than `depth` records ever wait. -/
theorem length_records_play {e : Estimator} (h : e.records.length ≤ depth) (events : List Event) :
    (e.play events).2.records.length ≤ depth := by
  induction events generalizing e with
  | nil => exact h
  | cons event rest ih =>
    refine ih ?_
    cases event with
    | report bytes => exact h
    | tick now =>
      change (e.tick now).records.length ≤ depth
      rw [records_tick]
      split
      next hroom =>
        rw [List.length_append]
        exact hroom
      next => exact h
    | receive =>
      have hsplit := congrArg List.length (take_append e)
      rw [List.length_append] at hsplit
      exact Nat.le_trans (by omega : e.take.2.records.length ≤ e.records.length) h

/-- Receiving as often as records wait empties the queue. -/
theorem play_receives (e : Estimator) :
    e.play (List.replicate e.records.length .receive) = (e.records, { e with records := [] }) := by
  generalize hrecords : e.records = records
  induction records generalizing e with
  | nil =>
    cases e
    cases hrecords
    rfl
  | cons r rest ih =>
    rcases e.take_cases with ⟨hnil, _⟩ | ⟨r', rest', hr, htake⟩
    · exact nomatch hnil.symm.trans hrecords
    · obtain ⟨rfl, rfl⟩ := List.cons.inj (hr.symm.trans hrecords)
      simp only [List.length_cons, List.replicate_succ, play, apply, htake]
      rw [ih { e with records := rest' } rfl]
      rfl

end Estimator

namespace Ticker

open Estimator (Event)

/-! ## Under a clock -/

/-- What can happen to an estimator under a clock. -/
inductive Action where
  | report (bytes : Nat)
  | sleep (span : Duration)
  | jump (span : Duration)
  /-- The ticks that are due get their turn. -/
  | settle
  /-- The oldest waiting record is taken, whatever is due. -/
  | receive
  | receiveAll

namespace Action

def bytes? : Action → Option Nat
  | report bytes => some bytes
  | _ => none

/-- The reports among some actions, in order. -/
def reports (actions : List Action) : List Nat :=
  actions.filterMap bytes?

/-- The ticks that are due get their turn in such an action. -/
def settles : Action → Bool
  | settle | jump _ | receiveAll => true
  | _ => false

end Action

/-- The records that an action hands out, and the ticker after it. -/
def act (t : Ticker) : Action → List ProgressRecord × Ticker
  | .report bytes => ([], t.report bytes)
  | .sleep span => ([], t.sleep span)
  | .jump span => ([], t.jump span)
  | .settle => ([], t.settle)
  | .receive => (t.estimator.take.1, { t with estimator := t.estimator.take.2 })
  | .receiveAll => t.receiveAll

/-- The records that a run hands out, and the ticker at its end. -/
def run (t : Ticker) : List Action → List ProgressRecord × Ticker
  | [] => ([], t)
  | action :: rest =>
    let (taken, t) := t.act action
    let (later, t) := t.run rest
    (taken ++ later, t)

/-- The ticks that `fireBefore` fires. -/
def ticks (limit : Nat) : (count : Nat) → Ticker → List Event
  | 0, _ => []
  | count + 1, t =>
    if t.due < limit then .tick (max t.now t.due) :: ticks limit count (t.fire (max t.now t.due))
    else []

/-- The ticks that are due. -/
def dueTicks (t : Ticker) : List Event :=
  ticks (t.now + 1) (t.ticksBefore (t.now + 1)) t

/-- What an action does to the estimator. -/
def events (t : Ticker) : Action → List Event
  | .report bytes => [.report bytes]
  | .sleep span => ticks (t.now + span.nanos) (t.ticksBefore (t.now + span.nanos)) t
  | .jump span => t.dueTicks ++ { t.settle with now := t.settle.now + span.nanos }.dueTicks
  | .settle => t.dueTicks
  | .receive => [.receive]
  | .receiveAll => t.dueTicks ++ List.replicate t.settle.estimator.records.length .receive

/-- What a run does to the estimator. -/
def history (t : Ticker) : List Action → List Event
  | [] => []
  | action :: rest => t.events action ++ (t.act action).2.history rest

theorem play_ticks (limit count : Nat) (t : Ticker) :
    t.estimator.play (ticks limit count t) = ([], (fireBefore limit count t).estimator) := by
  induction count generalizing t with
  | zero => rfl
  | succ count ih =>
    unfold ticks fireBefore
    split
    · simp only [Estimator.play, Estimator.apply]
      have hfire : (t.fire (max t.now t.due)).estimator = t.estimator.tick (max t.now t.due) := rfl
      rw [← hfire, ih]
      rfl
    · rfl

theorem reports_ticks (limit count : Nat) (t : Ticker) :
    Event.reports (ticks limit count t) = [] := by
  induction count generalizing t with
  | zero => rfl
  | succ count ih =>
    unfold ticks
    split
    · exact ih _
    · rfl

theorem play_dueTicks (t : Ticker) : t.estimator.play t.dueTicks = ([], t.settle.estimator) :=
  play_ticks _ _ t

/-- An action hands out what its events hand out. -/
theorem play_events (t : Ticker) (action : Action) :
    t.estimator.play (t.events action) = ((t.act action).1, (t.act action).2.estimator) := by
  cases action with
  | report bytes => rfl
  | sleep span => exact play_ticks _ _ t
  | jump span =>
    simp only [events, Estimator.play_append, play_dueTicks, List.nil_append]
    exact play_dueTicks { t.settle with now := t.settle.now + span.nanos }
  | settle => exact play_dueTicks t
  | receive =>
    simp only [events, act, Estimator.play, Estimator.apply, List.append_nil]
  | receiveAll =>
    simp only [events, Estimator.play_append, play_dueTicks, List.nil_append,
      Estimator.play_receives]
    rfl

theorem reports_events (t : Ticker) (action : Action) :
    Event.reports (t.events action) = action.bytes?.toList := by
  cases action with
  | report bytes => rfl
  | sleep span => exact reports_ticks _ _ t
  | jump span =>
    simp only [events, dueTicks, Event.reports_append, reports_ticks]
    rfl
  | settle => exact reports_ticks _ _ t
  | receive => rfl
  | receiveAll =>
    simp only [events, dueTicks, Event.reports_append, reports_ticks, List.nil_append]
    exact List.filterMap_eq_nil_iff.mpr fun event h => List.eq_of_mem_replicate h ▸ rfl

/-- A run hands out what its history hands out. -/
theorem run_follows (t : Ticker) (actions : List Action) :
    t.estimator.play (t.history actions) = ((t.run actions).1, (t.run actions).2.estimator) := by
  induction actions generalizing t with
  | nil => rfl
  | cons action rest ih =>
    simp only [history, run, Estimator.play_append, play_events, ih]

theorem reports_history (t : Ticker) (actions : List Action) :
    Event.reports (t.history actions) = Action.reports actions := by
  induction actions generalizing t with
  | nil => rfl
  | cons action rest ih =>
    have hcons : Action.reports (action :: rest) =
        action.bytes?.toList ++ Action.reports rest := by
      unfold Action.reports
      rw [List.filterMap_cons]
      cases action.bytes? <;> rfl
    rw [history, Event.reports_append, reports_events, ih, hcons]

/-- Ticks move neither the clock nor the interval. -/
theorem fireBefore_frame (limit count : Nat) (t : Ticker) :
    (fireBefore limit count t).now = t.now ∧ (fireBefore limit count t).interval = t.interval := by
  induction count generalizing t with
  | zero => exact ⟨rfl, rfl⟩
  | succ count ih =>
    unfold fireBefore
    split
    · exact ih _
    · exact ⟨rfl, rfl⟩

theorem interval_settle (t : Ticker) : t.settle.interval = t.interval :=
  (fireBefore_frame _ _ t).2

theorem interval_act (t : Ticker) (action : Action) : (t.act action).2.interval = t.interval := by
  cases action with
  | report bytes => rfl
  | sleep span => exact (fireBefore_frame _ _ t).2
  | jump span =>
    exact (interval_settle { t.settle with now := t.settle.now + span.nanos }).trans
      (interval_settle t)
  | settle => exact interval_settle t
  | receive => rfl
  | receiveAll => exact interval_settle t

theorem run_concat (t : Ticker) (actions : List Action) (action : Action) :
    (t.run (actions ++ [action])).2 = ((t.run actions).2.act action).2 := by
  induction actions generalizing t with
  | nil => rfl
  | cons a rest ih => exact ih (t.act a).2

theorem interval_run (t : Ticker) (actions : List Action) :
    (t.run actions).2.interval = t.interval := by
  induction actions generalizing t with
  | nil => rfl
  | cons action rest ih => exact (ih _).trans (interval_act t action)

/-- A ticker with an interval stops with the record of its estimator. -/
theorem processed_stop {t : Ticker} (h : 0 < t.interval.nanos) :
    t.stop.processed = t.estimator.known := by
  unfold stop alive
  rw [decide_eq_true h]
  exact t.estimator.processed_stop

/-- With an interval, no tick that is due before the limit stays behind. -/
theorem le_due_fireBefore {limit count : Nat} {t : Ticker}
    (h : limit ≤ t.due + count * t.interval.nanos) :
    limit ≤ (fireBefore limit count t).due := by
  induction count generalizing t with
  | zero => simpa [fireBefore] using h
  | succ count ih =>
    unfold fireBefore
    split
    next hdue =>
      have hmul : (count + 1) * t.interval.nanos = count * t.interval.nanos + t.interval.nanos :=
        Nat.succ_mul ..
      have hlater : t.due + t.interval.nanos ≤ (t.fire (max t.now t.due)).due := by
        unfold fire
        dsimp only
        split <;> omega
      refine ih ?_
      change limit ≤ (t.fire (max t.now t.due)).due + count * t.interval.nanos
      omega
    next hdue => omega

theorem le_due_of_ticksBefore {limit : Nat} {t : Ticker} (h : 0 < t.interval.nanos) :
    limit ≤ (fireBefore limit (t.ticksBefore limit) t).due := by
  refine le_due_fireBefore ?_
  have halive : t.alive = true := decide_eq_true h
  rw [ticksBefore, if_pos halive]
  have hdiv : limit - t.due < (limit - t.due) / t.interval.nanos * t.interval.nanos +
      t.interval.nanos := Nat.lt_div_mul_add h
  rw [Nat.succ_mul]
  omega

/-- Once the ticks had their turn, none of them is due. -/
theorem now_lt_due_settle {t : Ticker} (h : 0 < t.interval.nanos) :
    t.settle.now < t.settle.due := by
  have hdue : t.now + 1 ≤ t.settle.due := le_due_of_ticksBefore h
  have hnow : t.settle.now = t.now := (fireBefore_frame _ _ t).1
  omega

theorem now_lt_due_act {t : Ticker} (h : 0 < t.interval.nanos) {action : Action}
    (hsettles : action.settles = true) : (t.act action).2.now < (t.act action).2.due := by
  cases action with
  | jump span =>
    have hinterval := interval_settle t
    exact now_lt_due_settle (t := { t.settle with now := t.settle.now + span.nanos })
      (hinterval ▸ h)
  | settle => exact now_lt_due_settle h
  | receiveAll => exact now_lt_due_settle h
  | report | sleep | receive => exact nomatch hsettles

/-! ## The account of a run -/

/-- What the records of a run tell, when `already` bytes were in place before it. -/
structure Account (first : Ticker) (already : Nat) (actions : List Action) : Prop where
  /-- The history is that of the run: it hands out the same records and ends in the same state. -/
  follows : first.estimator.play (first.history actions) =
    ((first.run actions).1, (first.run actions).2.estimator)
  /-- The history of the run has its reports, in the order they were made in. -/
  reports : Event.reports (first.history actions) = Action.reports actions
  /-- The final record counts every report once. -/
  final : (first.run actions).2.stop.processed =
    min (already + (Action.reports actions).sum) (2 ^ 64 - 1)
  /-- The record of a tick counts the reports made before it. -/
  shown : (first.estimator.offered (first.history actions)).map ProgressRecord.processed =
    Event.tallies already (first.history actions)
  /-- What was received and what still waits are records of ticks, in their order. -/
  inOrder : ((first.run actions).1 ++ (first.run actions).2.estimator.records).Sublist
    (first.estimator.offered (first.history actions))
  ascending : ((first.run actions).1 ++ (first.run actions).2.estimator.records).Pairwise
    fun earlier later => earlier.processed ≤ later.processed
  below : ∀ r ∈ (first.run actions).1 ++ (first.run actions).2.estimator.records,
    r.processed ≤ (first.run actions).2.stop.processed
  /-- At every moment the queue is within bounds. -/
  bounded : ∀ before after, first.history actions = before ++ after →
    (first.estimator.play before).2.records.length ≤ Estimator.depth
  /-- A tick that finds room in the queue has its record received or waiting at the end, right
  behind the records before it. -/
  room : ∀ before now after, first.history actions = before ++ .tick now :: after →
    (first.estimator.play before).2.records.length < Estimator.depth →
    first.estimator.kept before ++ [((first.estimator.play before).2.tick now).record] <+:
      (first.run actions).1 ++ (first.run actions).2.estimator.records
  /-- Where the ticks get their turn, all that are due fire. -/
  settled : ∀ before action, before ++ [action] <+: actions → action.settles = true →
    (first.run (before ++ [action])).2.now < (first.run (before ++ [action])).2.due
  /-- In a sleep, all those that come due before its end fire. -/
  slept : ∀ before span, before ++ [.sleep span] <+: actions →
    (first.run (before ++ [.sleep span])).2.now ≤ (first.run (before ++ [.sleep span])).2.due

/-- The records neither lose a report nor count one twice. -/
theorem account_run (parallelism total window : Nat) {already : Nat} {interval : Duration}
    (halready : already < 2 ^ 64) (hinterval : 0 < interval.nanos) (actions : List Action) :
    Account (start parallelism already total window interval) already actions := by
  generalize hfirst : start parallelism already total window interval = first
  have hknown : first.estimator.known = min already (2 ^ 64 - 1) := by
    rw [← hfirst]
    change already = min already (2 ^ 64 - 1)
    omega
  have hnone : first.estimator.records = [] := by
    rw [← hfirst]
    rfl
  have hreports := reports_history first actions
  have hfollows := run_follows first actions
  have hkept : (first.run actions).1 ++ (first.run actions).2.estimator.records =
      first.estimator.kept (first.history actions) := by
    rw [Estimator.kept, hfollows]
  have hpos : ∀ actions, 0 < (first.run actions).2.interval.nanos := by
    intro actions
    rw [interval_run, ← hfirst]
    exact hinterval
  have hfinal : (first.run actions).2.stop.processed =
      min (already + (Action.reports actions).sum) (2 ^ 64 - 1) := by
    have hplay := Estimator.known_play hknown (first.history actions)
    rw [hfollows, hreports] at hplay
    exact (processed_stop (hpos actions)).trans hplay
  have hshown := Estimator.map_processed_offered hknown (first.history actions)
  have hsub := Estimator.kept_sublist first.estimator (first.history actions)
  rw [hnone, List.nil_append] at hsub
  have htallies := hsub.map ProgressRecord.processed
  rw [hshown] at htallies
  refine ⟨hfollows, hreports, hfinal, hshown, hkept ▸ hsub, ?ascending, ?below, ?bounded, ?room,
    ?settled, ?slept⟩
  case ascending =>
    rw [hkept]
    exact List.pairwise_map.mp ((Event.tallies_ascending ..).sublist htallies)
  case below =>
    intro r hr
    rw [hkept] at hr
    rw [hfinal, ← hreports]
    exact (Event.le_of_mem_tallies _ (htallies.subset (List.mem_map_of_mem hr))).2
  case bounded =>
    intro before after _
    exact Estimator.length_records_play (by rw [hnone]; exact Nat.zero_le _) before
  case room =>
    intro before now after hsplit hroom
    rw [hkept, hsplit, Estimator.kept_append, Estimator.kept, List.append_assoc]
    refine (List.prefix_append_right_inj _).mpr ?_
    have htick := Estimator.records_prefix_kept ((first.estimator.play before).2.tick now) after
    rw [Estimator.records_tick, if_pos hroom] at htick
    exact htick
  case settled =>
    intro before action _ hsettles
    rw [run_concat]
    exact now_lt_due_act (hpos before) hsettles
  case slept =>
    intro before span _
    rw [run_concat]
    exact le_due_of_ticksBefore (hpos before)

/-- A resumed session.  The report made after the last tick is in the final record. -/
theorem account_run_resumed :
    let first := start 2 600 1000 60 (.ofMillis 500)
    let actions : List Action :=
      [.report 300, .sleep (.ofMillis 1200), .receive, .jump (.ofMillis 700), .report 100]
    Account first 600 actions ∧ (first.run actions).2.stop.processed = 1000 := by
  intro first actions
  have h : Account first 600 actions := account_run 2 1000 60 (by decide) (by decide) actions
  exact ⟨h, h.final⟩

end Ticker
end ImageUpload
