import Mathlib.Data.List.Induction
import PlanFlow.Proofs.Session.Tracking

/-!
# The order of the events of a session

A session is started, goes through stages, each of which is completed before the next one is added,
and is closed.  A tracker makes sure of the start and of the end: it skips what comes before the
session or after it.  It does not look at the stage that is open.  So the events that are not
skipped follow the lifecycle of a session exactly when no stage is added while another one is open,
and none is completed while none is open.
-/

namespace PlanFlow

namespace SessionEvent

/-- Whether an event starts the session. -/
def isStart : SessionEvent → Bool
  | .start _ _ => true
  | .addStage _ _ | .completeStage _ | .complete _ | .fail _ => false

/-- Whether an event ends the session. -/
def isEnding : SessionEvent → Bool
  | .complete _ | .fail _ => true
  | .start _ _ | .addStage _ _ | .completeStage _ => false

/-- The stages that events add, each with its name and its input. -/
def additions (events : List SessionEvent) : List (String × Value) := events.filterMap added?

/-- The outputs of the stages that events complete. -/
def completions (events : List SessionEvent) : List Value := events.filterMap completed?

theorem additions_concat (events : List SessionEvent) (event : SessionEvent) :
    additions (events ++ [event]) = additions events ++ event.added?.toList := by
  rw [additions, List.filterMap_append, List.filterMap_cons]
  cases event.added? <;> rfl

theorem completions_concat (events : List SessionEvent) (event : SessionEvent) :
    completions (events ++ [event]) = completions events ++ event.completed?.toList := by
  rw [completions, List.filterMap_append, List.filterMap_cons]
  cases event.completed? <;> rfl

end SessionEvent

/-- The events of a session follow its lifecycle: the first one starts it and none follows its end,
a stage is completed before another one is added, and only a stage that was just added is
completed. -/
structure FollowsLifecycle (events : List SessionEvent) : Prop where
  framed : Framed SessionEvent.isStart SessionEvent.isEnding events
  added : ∀ before first between second after,
    events = before ++ first :: (between ++ second :: after) →
      first.added?.isSome → second.added?.isSome → ∃ event ∈ between, event.completed?.isSome
  completed : ∀ before event after, events = before ++ event :: after → event.completed?.isSome →
    ∃ last, before.getLast? = some last ∧ last.added?.isSome

/-- The index of the stage that is open. -/
def Tracker.openStage? (t : Tracker) : Option UInt32 :=
  match t.state with
  | .started _ openStage => openStage
  | .notStarted | .closed _ => none

/-- The event adds a stage while another one is open, or it completes one while none is open. -/
def SessionEvent.MisplacedAt (event : SessionEvent) (t : Tracker) : Prop :=
  (event.added?.isSome ∧ t.openStage?.isSome) ∨ (event.completed?.isSome ∧ ¬t.openStage?.isSome)

/-- The event was not skipped although it is about a stage in the wrong place. -/
def Handled.OutOfOrder (h : Handled) : Prop := h.accepted ∧ h.event.MisplacedAt h.before

/-- The events of a run that were not skipped. -/
def TrackerRun.accepted {σ : Type} (r : TrackerRun σ) : List SessionEvent :=
  (r.handled.filter Handled.accepted).map Handled.event

/-! ## Events that alternate -/

/-- Stages are added and completed in turn, from a moment at which one may be open. -/
def Alternate : Bool → List SessionEvent → Prop
  | _, [] => True
  | isOpen, event :: rest =>
    (event.added?.isSome → isOpen = false) ∧ (event.completed?.isSome → isOpen = true) ∧
      Alternate event.added?.isSome rest

theorem SessionEvent.not_misplacedAt_iff {event : SessionEvent} {t : Tracker} :
    ¬event.MisplacedAt t ↔ (event.added?.isSome → t.openStage?.isSome = false) ∧
      (event.completed?.isSome → t.openStage?.isSome = true) := by
  simp only [MisplacedAt, not_or, not_and, Bool.not_eq_true, Bool.not_eq_false]

/-- Whether the last of some events adds a stage; if there are none, whether one was open before. -/
def openAfter (isOpen : Bool) (events : List SessionEvent) : Bool :=
  (events.getLast?.map fun event => event.added?.isSome).getD isOpen

theorem openAfter_cons (isOpen : Bool) (event : SessionEvent) (rest : List SessionEvent) :
    openAfter isOpen (event :: rest) = openAfter event.added?.isSome rest := by
  rw [openAfter, openAfter, List.getLast?_cons]
  cases rest.getLast? <;> rfl

theorem openAfter_concat (isOpen : Bool) (events : List SessionEvent) (last : SessionEvent) :
    openAfter isOpen (events ++ [last]) = last.added?.isSome := by
  rw [openAfter, List.getLast?_concat, Option.map_some, Option.getD_some]

theorem alternate_iff {isOpen : Bool} {events : List SessionEvent} :
    Alternate isOpen events ↔ ∀ before event after, events = before ++ event :: after →
      (event.added?.isSome → openAfter isOpen before = false) ∧
        (event.completed?.isSome → openAfter isOpen before = true) := by
  induction events generalizing isOpen with
  | nil => simp [Alternate]
  | cons event rest ih =>
      rw [Alternate, ih]
      constructor
      · rintro ⟨hadded, hcompleted, hrest⟩ before other after h
        cases before with
        | nil =>
            obtain ⟨rfl, -⟩ := List.cons.inj h
            exact ⟨hadded, hcompleted⟩
        | cons first before =>
            obtain ⟨rfl, hafter⟩ := List.cons.inj h
            rw [openAfter_cons]
            exact hrest before other after hafter
      · intro h
        obtain ⟨hadded, hcompleted⟩ := h [] event rest rfl
        refine ⟨hadded, hcompleted, fun before other after hafter => ?_⟩
        rw [← openAfter_cons isOpen]
        exact h (event :: before) other after (congrArg _ hafter)

theorem FollowsLifecycle.alternate {events : List SessionEvent} (h : FollowsLifecycle events) :
    Alternate false events := by
  obtain ⟨-, hadded, hcompleted⟩ := h
  refine alternate_iff.mpr fun before event after h => ⟨fun hevent => ?_, fun hevent => ?_⟩
  · cases before using List.reverseRecOn with
    | nil => rfl
    | append_singleton before last =>
        rw [openAfter_concat, Bool.eq_false_iff]
        intro hlast
        have hnone := hadded before last [] event after (by simpa using h) hlast hevent
        simp at hnone
  · obtain ⟨last, hlast, hopen⟩ := hcompleted before event after h hevent
    rw [openAfter, hlast, Option.map_some, Option.getD_some]
    exact hopen

/-- In the frame of a session, to follow the lifecycle is to add and complete stages in turn. -/
theorem followsLifecycle_iff {events : List SessionEvent}
    (hframed : Framed SessionEvent.isStart SessionEvent.isEnding events) :
    FollowsLifecycle events ↔ Alternate false events := by
  refine ⟨FollowsLifecycle.alternate, fun halternate => ?_⟩
  have h := alternate_iff.mp halternate
  refine ⟨hframed, fun before first between second after heq hfirst hsecond => ?_,
    fun before event after heq hevent => ?_⟩
  · cases between with
    | nil =>
        have hclosed := (h (before ++ [first]) second after (by simpa using heq)).1 hsecond
        rw [openAfter_concat, hfirst] at hclosed
        cases hclosed
    | cons next between =>
        -- What comes next is no start and no end, and it adds no stage.
        have hnext : events = (before ++ [first]) ++ next :: (between ++ second :: after) := by
          simpa using heq
        have hstart := hframed.opens_first _ _ _ hnext
        have hending := hframed.closes_last _ _ _ hnext
        have hadds := (h _ _ _ hnext).1
        rw [openAfter_concat, hfirst] at hadds
        refine ⟨next, List.mem_cons_self, ?_⟩
        cases next <;> simp_all [SessionEvent.isStart, SessionEvent.isEnding,
          SessionEvent.added?, SessionEvent.completed?]
  · have hopen := (h before event after heq).2 hevent
    cases hlast : before.getLast? with
    | none =>
        rw [openAfter, hlast] at hopen
        cases hopen
    | some last =>
        rw [openAfter, hlast] at hopen
        exact ⟨last, rfl, hopen⟩

/-! ## Events that are not skipped -/

/-- Only what opens and what closes a list matters for its frame. -/
theorem Framed.congr {α β : Type} {opens closes : α → Bool} {opens' closes' : β → Bool}
    {items : List α} {others : List β} (h : Framed opens closes items)
    (hsame : (items.map fun item => (opens item, closes item)) =
      others.map fun item => (opens' item, closes' item)) : Framed opens' closes' others := by
  have hsplit : ∀ before item after, others = before ++ item :: after →
      ∃ before' item' after', items = before' ++ item' :: after' ∧
        (opens item', closes item') = (opens' item, closes' item) ∧
        (before' = [] ↔ before = []) ∧ (after' = [] ↔ after = []) := by
    rintro before item after rfl
    rw [List.map_append, List.map_cons] at hsame
    obtain ⟨before', rest, rfl, hbefore, hrest⟩ := List.map_eq_append_iff.mp hsame
    obtain ⟨item', after', rfl, hitem, hafter⟩ := List.map_eq_cons_iff.mp hrest
    refine ⟨before', item', after', rfl, hitem, ?_, ?_⟩
    · rw [← List.map_eq_nil_iff, hbefore, List.map_eq_nil_iff]
    · rw [← List.map_eq_nil_iff, hafter, List.map_eq_nil_iff]
  refine ⟨fun before item after hothers => ?_, fun before item after hothers hcloses => ?_⟩
  · obtain ⟨before', item', after', hitems, hitem, hnil, -⟩ := hsplit before item after hothers
    rw [← (Prod.mk.inj hitem).1, ← hnil]
    exact h.opens_first before' item' after' hitems
  · obtain ⟨before', item', after', hitems, hitem, -, hnil⟩ := hsplit before item after hothers
    rw [← (Prod.mk.inj hitem).2] at hcloses
    exact hnil.mp (h.closes_last before' item' after' hitems hcloses)

namespace Tracker

variable {t : Tracker} {fresh : Uuid} {now : Timestamp} {event : SessionEvent}

/-- The call of an event is about the start or the end of the session if the event is. -/
theorem kind_of_handle {call : StoreCall} (h : (t.handle fresh now event).2 = some call) :
    (event.isStart, event.isEnding) = (call.isCreate, call.isClose) := by
  obtain ⟨state, index⟩ := t
  cases state <;> cases event <;> simp only [handle, close, reduceCtorEq] at h <;>
    obtain rfl := Option.some.inj h <;> rfl

/-- A stage is open after an event that adds one, and after no other one. -/
theorem openStage?_handle (h : (t.handle fresh now event).2.isSome) :
    (t.handle fresh now event).1.openStage?.isSome = event.added?.isSome := by
  obtain ⟨state, index⟩ := t
  cases state <;> cases event <;> first | rfl | cases h

end Tracker

namespace Surroundings

variable {σ : Type} (s : Surroundings σ) {count : Nat} {t : Tracker} {event : SessionEvent}

theorem accepted_run_of_none (h : (t.handle (s.ids count) (s.clock count) event).2 = none)
    (store : σ) (rest : List SessionEvent) :
    (s.run count t store (event :: rest)).accepted =
      (s.run (count + 1) t store rest).accepted := by
  simp only [run_cons, h, Tracker.handle_of_eq_none h, Option.elim_none, TrackerRun.accepted]
  rw [List.filter_cons_of_neg (by rw [accepted_iff, h]; exact Bool.false_ne_true)]

theorem accepted_run_of_some {call : StoreCall}
    (h : (t.handle (s.ids count) (s.clock count) event).2 = some call) (store : σ)
    (rest : List SessionEvent) :
    (s.run count t store (event :: rest)).accepted =
      event :: (s.run (count + 1) (t.handle (s.ids count) (s.clock count) event).1
        (s.service call store).2 rest).accepted := by
  simp only [run_cons, h, Option.elim_some, TrackerRun.accepted]
  rw [List.filter_cons_of_pos (by rw [accepted_iff, h]; rfl), List.map_cons]

theorem kinds_accepted (count : Nat) (t : Tracker) (store : σ) (events : List SessionEvent) :
    ((t.calls s.ids s.clock count events).map fun call => (call.isCreate, call.isClose)) =
      (s.run count t store events).accepted.map fun event => (event.isStart, event.isEnding) := by
  induction events generalizing count t store with
  | nil => rfl
  | cons event rest ih =>
      cases hcall : (t.handle (s.ids count) (s.clock count) event).2 with
      | none =>
          rw [Tracker.calls_cons_of_none hcall, accepted_run_of_none s hcall]
          exact ih ..
      | some call =>
          rw [Tracker.calls_cons_of_some hcall, accepted_run_of_some s hcall, List.map_cons,
            List.map_cons, ih, Tracker.kind_of_handle hcall]

/-- Stages are added and completed in turn exactly when no event is out of order. -/
theorem alternate_accepted_iff (count : Nat) (t : Tracker) (store : σ)
    (events : List SessionEvent) :
    Alternate t.openStage?.isSome (s.run count t store events).accepted ↔
      ∀ h ∈ (s.run count t store events).handled, ¬h.OutOfOrder := by
  induction events generalizing count t store with
  | nil => simp [run, TrackerRun.accepted, Alternate]
  | cons event rest ih =>
      let first : Handled := ⟨event, t, (t.track s.settings s.service store (s.ids count)
        (s.clock count) event).1, (t.handle (s.ids count) (s.clock count) event).1⟩
      have hfirst := accepted_iff s count t store event first.after
      cases hcall : (t.handle (s.ids count) (s.clock count) event).2 with
      | none =>
          have hskipped : ¬first.OutOfOrder := by
            rintro ⟨haccepted, -⟩
            rw [hfirst, hcall] at haccepted
            cases haccepted
          rw [accepted_run_of_none s hcall, ih, run_cons, List.forall_mem_cons, hcall,
            Tracker.handle_of_eq_none hcall]
          exact (and_iff_right hskipped).symm
      | some call =>
          have hinOrder : ¬first.OutOfOrder ↔ ¬event.MisplacedAt t := by
            rw [Handled.OutOfOrder, hfirst, hcall, Option.isSome_some, eq_self, true_and]
          have hopen := Tracker.openStage?_handle (Option.isSome_of_eq_some hcall)
          rw [accepted_run_of_some s hcall, Alternate, ← hopen, ih, run_cons, List.forall_mem_cons,
            hcall, hopen, hinOrder, SessionEvent.not_misplacedAt_iff, and_assoc]
          rfl

end Surroundings
end PlanFlow
