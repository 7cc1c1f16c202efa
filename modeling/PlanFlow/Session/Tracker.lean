import PlanFlow.Session.Store
import PlanFlow.Settings

/-!
# Session trackers

A tracker turns the events of a run into calls of a session store.  It goes through three states: a
session is not started, started, or closed.  An event that does not fit the state is skipped; any
other changes the state and leads to one call.

Tracking is an extra that a run must not depend on.  A call that fails, or is not answered in time,
is dropped, and the tracker goes on as if it had succeeded.
-/

namespace PlanFlow

/-- Something that happens in a run. -/
inductive SessionEvent where
  | start (input : SessionInput) (provider : Option Provider)
  | addStage (name : String) (input : Value)
  | completeStage (output : Value)
  | complete (output : Value)
  | fail (message : String)
  deriving Inhabited

/-- How far a session is. -/
inductive TrackerState where
  | notStarted
  /-- The session goes on; the stage of an index may be open. -/
  | started (session : Uuid) (openStage : Option UInt32)
  | closed (session : Uuid)
  deriving DecidableEq, Inhabited

/-- A tracker: how far its session is, and the index of the next stage.  Indices have 32 bits, so
that zero comes after the last one. -/
structure Tracker where
  state : TrackerState
  nextIndex : UInt32
  deriving DecidableEq, Inhabited

namespace Tracker

/-- The tracker of a run that has not started. -/
def new : Tracker := ⟨.notStarted, 0⟩

/-- The id of the session, once it has started. -/
def session? (t : Tracker) : Option Uuid :=
  match t.state with
  | .notStarted => none
  | .started id _ | .closed id => some id

/-- Whether the session is over. -/
def isClosed (t : Tracker) : Bool :=
  match t.state with
  | .closed _ => true
  | .notStarted | .started _ _ => false

/-- Closes the session of a tracker. -/
def close (t : Tracker) (status : SessionStatus) (now : Timestamp) : Tracker × Option StoreCall :=
  match t.state with
  | .started id _ => ({ t with state := .closed id }, some (.close id status now))
  | .notStarted | .closed _ => (t, none)

/-- The tracker after an event, and the call to be made, unless the event is skipped.  A session
that the event starts gets the id `fresh`. -/
def handle (t : Tracker) (fresh : Uuid) (now : Timestamp) :
    SessionEvent → Tracker × Option StoreCall
  | .start input provider =>
    match t.state with
    | .notStarted =>
      ({ t with state := .started fresh none }, some (.create (.start fresh input provider now)))
    | .started _ _ | .closed _ => (t, none)
  | .addStage name input =>
    match t.state with
    | .started id _ =>
      ({ t with state := .started id (some t.nextIndex) },
        some (.append id ⟨t.nextIndex.toNat, name, input, none, now, none⟩))
    | .notStarted | .closed _ => (t, none)
  | .completeStage output =>
    match t.state with
    | .started id openStage =>
      (⟨.started id none, t.nextIndex + 1⟩,
        some (.complete id (openStage.getD t.nextIndex).toNat output now))
    | .notStarted | .closed _ => (t, none)
  | .complete output => t.close (.completed output) now
  | .fail message => t.close (.failed message) now

end Tracker

/-- What became of an event. -/
inductive Tracked where
  /-- The store took the record. -/
  | recorded
  /-- The store failed or did not answer in time. -/
  | dropped
  /-- The event did not fit the state of the session. -/
  | skipped
  deriving DecidableEq, Inhabited

/-- How a store answers a call. -/
inductive Answer where
  | done
  | failed (fault : StoreFault)
  /-- The store never answers. -/
  | silent
  deriving DecidableEq, Inhabited

namespace Answer

/-- The result of a call that is given up after some time. -/
def result (settings : TrackingSettings) : Answer → Except StoreFault Unit
  | .done => .ok ()
  | .failed fault => .error fault
  | .silent => .error (.timeout settings.storeTimeout)

end Answer

/-- A store as its callers see it: every call changes it and has an answer. -/
abbrev StoreService (σ : Type) := StoreCall → σ → Answer × σ

namespace Tracker

variable {σ : Type}

/-- What became of the event that led to a call. -/
def outcome (settings : TrackingSettings) (answer : Answer) : Tracked :=
  match answer.result settings with
  | .ok () => .recorded
  | .error _ => .dropped

/-- Handles an event and makes the call. -/
def track (t : Tracker) (settings : TrackingSettings) (service : StoreService σ) (store : σ)
    (fresh : Uuid) (now : Timestamp) (event : SessionEvent) : Tracked × Tracker × σ :=
  match t.handle fresh now event with
  | (t, none) => (.skipped, t, store)
  | (t, some call) =>
    let (answer, store) := service call store
    (outcome settings answer, t, store)

end Tracker

namespace SessionStore

/-- A store that answers every call at once. -/
def service : StoreService SessionStore := fun call store =>
  match store.apply call with
  | .ok store => (.done, store)
  | .error fault => (.failed fault, store)

end SessionStore
end PlanFlow
