import Mathlib.Algebra.Group.Nat.Defs
import PlanFlow.Proofs.Session.Writers

/-!
# What a tracker does of its own accord

A tracker goes on in the same way whatever a store answers.  So two runs that handle the same
events, each with a store, a clock and session ids of its own, go through the same states, skip the
same events and attempt the same calls.  The runs differ in the id of the session and in the times
of the calls, and in nothing else.

The calls of a run are those of one session.  It is created by the first call and by no other one,
and no call follows the one that closes it.
-/

namespace PlanFlow

/-- A list begins with an item that opens it, and no other item does; and no item follows one that
closes it. -/
structure Framed {α : Type} (opens closes : α → Bool) (items : List α) : Prop where
  opens_first : ∀ before item after, items = before ++ item :: after → (opens item ↔ before = [])
  closes_last : ∀ before item after, items = before ++ item :: after → closes item → after = []

/-- What a tracker finds around it: its settings, a store, and for each event the time that the
clock shows and the id that a session gets if the event starts it. -/
structure Surroundings (σ : Type) where
  settings : TrackingSettings
  service : StoreService σ
  clock : Nat → Timestamp
  ids : Nat → Uuid

/-- What is seen of an event: the tracker before and after it, and what became of it. -/
structure Handled where
  event : SessionEvent
  before : Tracker
  outcome : Tracked
  after : Tracker

/-- A run of a tracker: what is seen of its events, and the tracker and the store at its end. -/
structure TrackerRun (σ : Type) where
  handled : List Handled
  tracker : Tracker
  store : σ

namespace Surroundings

variable {σ : Type}

/-- Handles events, where `count` events were handled before. -/
def run (s : Surroundings σ) : Nat → Tracker → σ → List SessionEvent → TrackerRun σ
  | _, t, store, [] => ⟨[], t, store⟩
  | count, t, store, event :: rest =>
    let (outcome, after, store) :=
      t.track s.settings s.service store (s.ids count) (s.clock count) event
    let later := s.run (count + 1) after store rest
    ⟨⟨event, t, outcome, after⟩ :: later.handled, later.tracker, later.store⟩

/-- The run of a new tracker. -/
def track (s : Surroundings σ) (store : σ) (events : List SessionEvent) : TrackerRun σ :=
  s.run 0 .new store events

/-- The same surroundings, with a list of the calls that are attempted. -/
def logged (s : Surroundings σ) : Surroundings (σ × List StoreCall) where
  settings := s.settings
  service := fun call (store, log) =>
    let (answer, store) := s.service call store
    (answer, store, log ++ [call])
  clock := s.clock
  ids := s.ids

end Surroundings

/-! ## Calls and trackers without the particulars of a run -/

namespace StoreCall

/-- The call without the id of its session and without its time. -/
def blank : StoreCall → StoreCall
  | .create s => .create { s with id := default, createdAt := default }
  | .append _ stage => .append default { stage with startedAt := default }
  | .complete _ index output _ => .complete default index output default
  | .close _ status _ => .close default status default

/-- Whether a call creates its session. -/
def isCreate : StoreCall → Bool
  | .create _ => true
  | .append _ _ | .complete _ _ _ _ | .close _ _ _ => false

end StoreCall

/-- The tracker without the id of its session. -/
def Tracker.blank (t : Tracker) : Tracker :=
  match t.state with
  | .notStarted => t
  | .started _ openStage => { t with state := .started default openStage }
  | .closed _ => { t with state := .closed default }

namespace SessionEvent

/-- The name and the input of the stage that is added. -/
def added? : SessionEvent → Option (String × Value)
  | .addStage name input => some (name, input)
  | .start _ _ | .completeStage _ | .complete _ | .fail _ => none

/-- The output of the stage that is completed. -/
def completed? : SessionEvent → Option Value
  | .completeStage output => some output
  | .start _ _ | .addStage _ _ | .complete _ | .fail _ => none

end SessionEvent

namespace Handled

/-- The event was not skipped. -/
def accepted (h : Handled) : Bool := decide (h.outcome ≠ .skipped)

/-- The event is the completion of a stage, and it was not skipped. -/
def completes (h : Handled) : Bool := h.accepted && h.event.completed?.isSome

/-- The tracker before and after the event, and whether the event was skipped. -/
def view (h : Handled) : Tracker × Bool × Tracker := (h.before.blank, h.accepted, h.after.blank)

end Handled

/-! ## One event -/

namespace Tracker

variable {σ : Type}

/-- An event is skipped if it does not lead to a call, and only then. -/
theorem fst_track_ne_skipped (t : Tracker) (settings : TrackingSettings) (service : StoreService σ)
    (store : σ) (fresh : Uuid) (now : Timestamp) (event : SessionEvent) :
    (t.track settings service store fresh now event).1 ≠ .skipped ↔
      (t.handle fresh now event).2.isSome := by
  unfold track
  split <;> rename_i h <;> rw [h]
  · simp
  · simp only [outcome]
    split <;> simp

/-- Handling an event does not depend on the particulars of a run. -/
theorem blank_handle (t : Tracker) (fresh : Uuid) (now : Timestamp) (event : SessionEvent) :
    (t.handle fresh now event).1.blank = (t.blank.handle default default event).1 ∧
      (t.handle fresh now event).2.map StoreCall.blank =
        (t.blank.handle default default event).2 := by
  obtain ⟨state, index⟩ := t
  cases state <;> cases event <;> exact ⟨rfl, rfl⟩

/-- A call is about the session of the tracker, which stays the same once there is one. -/
theorem session?_handle (t : Tracker) (fresh : Uuid) (now : Timestamp) (event : SessionEvent) :
    (∀ id, t.session? = some id → (t.handle fresh now event).1.session? = some id) ∧
      ∀ call ∈ (t.handle fresh now event).2,
        (t.handle fresh now event).1.session? = some call.session := by
  obtain ⟨state, index⟩ := t
  cases state <;> cases event <;>
    simp [handle, close, session?, StoreCall.session, Session.start]

/-- The index of the next stage goes up with each completion that is not skipped. -/
theorem nextIndex_handle (t : Tracker) (fresh : Uuid) (now : Timestamp) (event : SessionEvent) :
    (t.handle fresh now event).1.nextIndex =
      t.nextIndex +
        if (t.handle fresh now event).2.isSome && event.completed?.isSome then 1 else 0 := by
  obtain ⟨state, index⟩ := t
  cases state <;> cases event <;> simp [handle, close, SessionEvent.completed?]

/-- An event that is skipped changes nothing. -/
theorem handle_of_eq_none {t : Tracker} {fresh : Uuid} {now : Timestamp} {event : SessionEvent}
    (h : (t.handle fresh now event).2 = none) : (t.handle fresh now event).1 = t := by
  obtain ⟨state, index⟩ := t
  cases state <;> cases event <;> first | rfl | cases h

/-- A session is created by a tracker that has none, and by no other one. -/
theorem isCreate_of_handle {t : Tracker} {fresh : Uuid} {now : Timestamp} {event : SessionEvent}
    {call : StoreCall} (h : (t.handle fresh now event).2 = some call) :
    call.isCreate ↔ t.session? = none := by
  obtain ⟨state, index⟩ := t
  cases state <;> cases event <;> simp only [handle, close, reduceCtorEq] at h <;>
    obtain rfl := Option.some.inj h <;> simp [StoreCall.isCreate, session?]

/-- A closed tracker skips all events. -/
theorem handle_of_isClosed {t : Tracker} (h : t.isClosed) (fresh : Uuid) (now : Timestamp)
    (event : SessionEvent) : t.handle fresh now event = (t, none) := by
  obtain ⟨state, index⟩ := t
  cases state with
  | closed id => cases event <;> rfl
  | notStarted | started => cases h

theorem isClosed_of_isClose {t : Tracker} {fresh : Uuid} {now : Timestamp} {event : SessionEvent}
    {call : StoreCall} (h : (t.handle fresh now event).2 = some call) (hclose : call.isClose) :
    (t.handle fresh now event).1.isClosed := by
  obtain ⟨state, index⟩ := t
  cases state <;> cases event <;> simp only [handle, close, reduceCtorEq] at h <;>
    obtain rfl := Option.some.inj h <;> first | rfl | cases hclose

/-! ## The calls of a run -/

/-- The calls that events lead to, where `count` events were handled before. -/
def calls (ids : Nat → Uuid) (clock : Nat → Timestamp) :
    Nat → Tracker → List SessionEvent → List StoreCall
  | _, _, [] => []
  | count, t, event :: rest =>
    let (after, call) := t.handle (ids count) (clock count) event
    call.toList ++ calls ids clock (count + 1) after rest

section Calls

variable {ids : Nat → Uuid} {clock : Nat → Timestamp}

theorem calls_cons_of_none {t : Tracker} {count : Nat} {event : SessionEvent}
    (h : (t.handle (ids count) (clock count) event).2 = none) (rest : List SessionEvent) :
    t.calls ids clock count (event :: rest) = t.calls ids clock (count + 1) rest := by
  simp only [calls, h, handle_of_eq_none h, Option.toList_none, List.nil_append]

theorem calls_cons_of_some {t : Tracker} {count : Nat} {event : SessionEvent} {call : StoreCall}
    (h : (t.handle (ids count) (clock count) event).2 = some call) (rest : List SessionEvent) :
    t.calls ids clock count (event :: rest) =
      call :: (t.handle (ids count) (clock count) event).1.calls ids clock (count + 1) rest := by
  simp only [calls, h, Option.toList_some, List.cons_append, List.nil_append]

theorem calls_of_isClosed {t : Tracker} (h : t.isClosed) (count : Nat)
    (events : List SessionEvent) : t.calls ids clock count events = [] := by
  induction events generalizing count with
  | nil => rfl
  | cons event rest ih =>
      have hcall := congrArg Prod.snd (handle_of_isClosed h (ids count) (clock count) event)
      rw [calls_cons_of_none hcall]
      exact ih (count + 1)

/-- A tracker that has a session creates no other one. -/
theorem not_isCreate_of_mem_calls {t : Tracker} (ht : t.session? ≠ none) {count : Nat}
    {events : List SessionEvent} : ∀ call ∈ t.calls ids clock count events, ¬call.isCreate := by
  induction events generalizing t count with
  | nil => exact fun call hcall => absurd hcall List.not_mem_nil
  | cons event rest ih =>
      cases hfirst : (t.handle (ids count) (clock count) event).2 with
      | none =>
          rw [calls_cons_of_none hfirst]
          exact ih ht
      | some first =>
          have hafter := (t.session?_handle (ids count) (clock count) event).2 first hfirst
          rw [calls_cons_of_some hfirst, List.forall_mem_cons, isCreate_of_handle hfirst]
          exact ⟨ht, ih (by simp [hafter])⟩

theorem eq_nil_of_isClose {t : Tracker} {count : Nat} {events : List SessionEvent} :
    ∀ before call after, t.calls ids clock count events = before ++ call :: after →
      call.isClose → after = [] := by
  induction events generalizing t count with
  | nil => simp [calls]
  | cons event rest ih =>
      intro before call after h hclose
      cases hfirst : (t.handle (ids count) (clock count) event).2 with
      | none =>
          rw [calls_cons_of_none hfirst] at h
          exact ih before call after h hclose
      | some first =>
          rw [calls_cons_of_some hfirst] at h
          cases before with
          | nil =>
              obtain ⟨rfl, rfl⟩ := List.cons.inj h
              exact calls_of_isClosed (isClosed_of_isClose hfirst hclose) (count + 1) rest
          | cons other before =>
              exact ih before call after (List.cons.inj h).2 hclose

/-- The calls of a tracker without a session are those of one session. -/
theorem framed_calls {t : Tracker} (ht : t.session? = none) (count : Nat)
    (events : List SessionEvent) :
    Framed StoreCall.isCreate StoreCall.isClose (t.calls ids clock count events) where
  opens_first := by
    induction events generalizing count with
    | nil => simp [calls]
    | cons event rest ih =>
        cases hfirst : (t.handle (ids count) (clock count) event).2 with
        | none =>
            rw [calls_cons_of_none hfirst]
            exact ih (count + 1)
        | some first =>
            have hafter := (t.session?_handle (ids count) (clock count) event).2 first hfirst
            have hlater : ∀ call ∈ (t.handle (ids count) (clock count) event).1.calls ids clock
                (count + 1) rest, ¬call.isCreate :=
              not_isCreate_of_mem_calls (by rw [hafter]; exact Option.some_ne_none _)
            intro before call after h
            rw [calls_cons_of_some hfirst] at h
            cases before with
            | nil =>
                obtain ⟨rfl, -⟩ := List.cons.inj h
                simp [isCreate_of_handle hfirst, ht]
            | cons other before =>
                obtain ⟨-, hrest⟩ := List.cons.inj h
                have hcall := hlater call (hrest ▸ by simp)
                simp [hcall]
  closes_last := eq_nil_of_isClose

/-- The calls of a tracker do not depend on the particulars of a run. -/
theorem blank_calls {ids' : Nat → Uuid} {clock' : Nat → Timestamp} {t t' : Tracker}
    (h : t.blank = t'.blank) (count count' : Nat) (events : List SessionEvent) :
    (t.calls ids clock count events).map StoreCall.blank =
      (t'.calls ids' clock' count' events).map StoreCall.blank := by
  induction events generalizing t t' count count' with
  | nil => rfl
  | cons event rest ih =>
      obtain ⟨hafter, hcall⟩ := t.blank_handle (ids count) (clock count) event
      obtain ⟨hafter', hcall'⟩ := t'.blank_handle (ids' count') (clock' count') event
      simp only [calls, List.map_append, ← Option.toList_map]
      rw [hcall, hcall', h, ih (hafter.trans (h ▸ hafter'.symm)) (count + 1) (count' + 1)]

end Calls
end Tracker

/-! ## Runs -/

namespace Surroundings

variable {σ σ' : Type} {s : Surroundings σ}

theorem run_cons (s : Surroundings σ) (count : Nat) (t : Tracker) (store : σ)
    (event : SessionEvent) (rest : List SessionEvent) :
    let outcome := (t.track s.settings s.service store (s.ids count) (s.clock count) event).1
    let step := t.handle (s.ids count) (s.clock count) event
    let later := s.run (count + 1) step.1
      (step.2.elim store fun call => (s.service call store).2) rest
    s.run count t store (event :: rest) =
      ⟨⟨event, t, outcome, step.1⟩ :: later.handled, later.tracker, later.store⟩ := by
  simp only [run, Tracker.snd_track]

theorem accepted_iff (s : Surroundings σ) (count : Nat) (t : Tracker) (store : σ)
    (event : SessionEvent) (after : Tracker) :
    (Handled.mk event t
      (t.track s.settings s.service store (s.ids count) (s.clock count) event).1 after).accepted =
        (t.handle (s.ids count) (s.clock count) event).2.isSome := by
  rw [Bool.eq_iff_iff, Handled.accepted, decide_eq_true_iff]
  exact t.fst_track_ne_skipped ..

/-- The store after a run is the store after its calls. -/
theorem store_run (s : Surroundings σ) (count : Nat) (t : Tracker) (store : σ)
    (events : List SessionEvent) :
    (s.run count t store events).store = (t.calls s.ids s.clock count events).foldl
      (fun store call => (s.service call store).2) store := by
  induction events generalizing count t store with
  | nil => rfl
  | cons event rest ih =>
      simp only [run_cons, Tracker.calls]
      rw [ih]
      cases (t.handle (s.ids count) (s.clock count) event).2 <;> rfl

/-- The calls that are attempted follow from the events. -/
theorem log_run (s : Surroundings σ) (count : Nat) (t : Tracker) (store : σ)
    (log : List StoreCall) (events : List SessionEvent) :
    (s.logged.run count t (store, log) events).store.2 =
      log ++ t.calls s.ids s.clock count events := by
  have hlog (calls : List StoreCall) : (calls.foldl (fun store call =>
      (s.logged.service call store).2) (store, log)).2 = log ++ calls := by
    induction calls generalizing store log with
    | nil => exact (List.append_nil log).symm
    | cons call rest ih => exact (ih ..).trans (List.append_assoc log [call] rest)
  rw [store_run]
  exact hlog _

/-- What is seen of a run follows from its events. -/
theorem view_run (s : Surroundings σ) (s' : Surroundings σ') {t t' : Tracker}
    (h : t.blank = t'.blank) (count count' : Nat) (store : σ) (store' : σ')
    (events : List SessionEvent) :
    (s.run count t store events).handled.map Handled.view =
      (s'.run count' t' store' events).handled.map Handled.view := by
  induction events generalizing t t' count count' store store' with
  | nil => rfl
  | cons event rest ih =>
      obtain ⟨hafter, hcall⟩ := t.blank_handle (s.ids count) (s.clock count) event
      obtain ⟨hafter', hcall'⟩ := t'.blank_handle (s'.ids count') (s'.clock count') event
      have hsame : (t.handle (s.ids count) (s.clock count) event).1.blank =
          (t'.handle (s'.ids count') (s'.clock count') event).1.blank := by
        rw [hafter, hafter', h]
      have haccepted : (t.handle (s.ids count) (s.clock count) event).2.isSome =
          (t'.handle (s'.ids count') (s'.clock count') event).2.isSome := by
        rw [← Option.isSome_map (f := StoreCall.blank), hcall, h, ← hcall', Option.isSome_map]
      -- The outcomes may differ, but only by whether the record was taken or dropped.
      rw [run_cons, run_cons]
      simp only [List.map_cons, Handled.view, accepted_iff, hsame, haccepted, h]
      exact congrArg _ (ih hsame (count + 1) (count' + 1) _ _)

/-- The session of the tracker is that of all calls. -/
theorem session_of_mem_calls (s : Surroundings σ) (count : Nat) (t : Tracker) (store : σ)
    (events : List SessionEvent) :
    (∀ id, t.session? = some id → (s.run count t store events).tracker.session? = some id) ∧
      ∀ call ∈ t.calls s.ids s.clock count events,
        (s.run count t store events).tracker.session? = some call.session := by
  induction events generalizing count t store with
  | nil => exact ⟨fun _ h => h, fun _ hcall => absurd hcall List.not_mem_nil⟩
  | cons event rest ih =>
      obtain ⟨hstays, hcall⟩ := t.session?_handle (s.ids count) (s.clock count) event
      rw [run_cons]
      obtain ⟨hlater, hcalls⟩ := ih (count + 1) (t.handle (s.ids count) (s.clock count) event).1
        ((t.handle (s.ids count) (s.clock count) event).2.elim store fun call =>
          (s.service call store).2)
      refine ⟨fun id hid => hlater id (hstays id hid), fun call hmem => ?_⟩
      simp only [Tracker.calls, List.mem_append, Option.mem_toList] at hmem
      exact hmem.elim (fun h => hlater _ (hcall call h)) (hcalls call)

/-- The index of the next stage counts the completions so far, in 32 bits. -/
theorem nextIndex_run (s : Surroundings σ) (count : Nat) (t : Tracker) (store : σ)
    (events : List SessionEvent) (earlier : List Handled) (h : Handled)
    (hseen : earlier ++ [h] <+: (s.run count t store events).handled) :
    h.after.nextIndex = t.nextIndex + .ofNat ((earlier ++ [h]).countP Handled.completes) := by
  induction events generalizing count t store earlier with
  | nil => simp [run] at hseen
  | cons event rest ih =>
      let first : Handled := ⟨event, t, (t.track s.settings s.service store (s.ids count)
        (s.clock count) event).1, (t.handle (s.ids count) (s.clock count) event).1⟩
      have hfirst : first.after.nextIndex = t.nextIndex + if first.completes then 1 else 0 := by
        rw [Handled.completes, accepted_iff]
        exact t.nextIndex_handle ..
      rw [run_cons] at hseen
      cases earlier with
      | nil =>
          obtain ⟨rfl, -⟩ := List.cons_prefix_cons.mp hseen
          rw [List.nil_append, List.countP_singleton, hfirst]
          split <;> rfl
      | cons other earlier =>
          obtain ⟨rfl, hrest⟩ := List.cons_prefix_cons.mp hseen
          rw [ih _ _ _ earlier hrest, hfirst, List.cons_append, List.countP_cons, UInt32.ofNat_add,
            UInt32.add_comm (.ofNat _), UInt32.add_assoc]
          split <;> rfl

/-- Two runs that handle the same events go through the same states and indices, skip the same
events, and attempt the same calls, in whatever order the events come and whatever the stores
answer; only the id of the session and the times may differ.  In each of them the calls are those of
one session in order, and the index of the next stage is at all times the number of completions that
were not skipped, as far as 32 bits can count them. -/
theorem track_agrees (s : Surroundings σ) (s' : Surroundings σ') (store : σ) (store' : σ')
    (events : List SessionEvent) :
    let run := s.logged.track (store, []) events
    let run' := s'.logged.track (store', []) events
    run.handled.map Handled.view = run'.handled.map Handled.view ∧
      run.store.2.map StoreCall.blank = run'.store.2.map StoreCall.blank ∧
      Framed StoreCall.isCreate StoreCall.isClose run.store.2 ∧
      (∀ call ∈ run.store.2, run.tracker.session? = some call.session) ∧
      ∀ earlier h, earlier ++ [h] <+: run.handled →
        h.after.nextIndex.toNat = (earlier ++ [h]).countP Handled.completes % 2 ^ 32 := by
  intro run run'
  have hlog : run.store.2 = Tracker.new.calls s.ids s.clock 0 events := log_run s 0 .new store [] _
  have hlog' : run'.store.2 = Tracker.new.calls s'.ids s'.clock 0 events :=
    log_run s' 0 .new store' [] _
  refine ⟨view_run s.logged s'.logged rfl 0 0 _ _ events, ?_, ?_, ?_, fun earlier h hseen => ?_⟩
  · rw [hlog, hlog']
    exact Tracker.blank_calls rfl 0 0 events
  · rw [hlog]
    exact Tracker.framed_calls rfl 0 events
  · rw [hlog]
    exact (session_of_mem_calls s.logged 0 .new (store, []) events).2
  · rw [nextIndex_run s.logged 0 .new (store, []) events earlier h hseen, Tracker.new,
      UInt32.zero_add, UInt32.toNat_ofNat']

end Surroundings

/-- The writer of a recorder runs a tracker whose session has the id of the recorder. -/
theorem Recorder.write_eq_run {σ : Type} (settings : TrackingSettings) (service : StoreService σ)
    (id : Uuid) (clock : Nat → Timestamp) (count : Nat) (t : Tracker) (store : σ)
    (events : List SessionEvent) :
    let run := Surroundings.run ⟨settings, service, clock, fun _ => id⟩ count t store events
    write settings service id clock count t store events = (run.tracker, run.store) := by
  induction events generalizing count t store with
  | nil => rfl
  | cons event rest ih => exact ih ..

end PlanFlow
