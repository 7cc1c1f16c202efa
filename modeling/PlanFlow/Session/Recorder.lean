import PlanFlow.Session.Tracker

/-!
# Session recorders

A recorder stands between a run and a tracker.  The run only puts its events into a queue and never
waits for the store; a writer takes them out in order and has a tracker handle them.  A recorder
that has no writer forgets every event.
-/

namespace PlanFlow

/-- A recorder: the id that the session will have, and the events in the queue, oldest first, if
there is a writer for them. -/
structure Recorder where
  session : Uuid
  queue : Option (List SessionEvent)
  deriving Inhabited

namespace Recorder

variable {σ : Type}

/-- A recorder with an empty queue, and a writer if there can be one. -/
def spawn (session : Uuid) (hasWriter : Bool) : Recorder :=
  ⟨session, if hasWriter then some [] else none⟩

/-- The recorder with one more event in the queue. -/
def send (r : Recorder) (event : SessionEvent) : Recorder :=
  { r with queue := r.queue.map (· ++ [event]) }

/-- The recorder with more events in the queue. -/
def sendAll (r : Recorder) (events : List SessionEvent) : Recorder := events.foldl send r

/-- Has a tracker handle events in order, at the times that a clock shows, where `count` events were
handled before. -/
def write (settings : TrackingSettings) (service : StoreService σ) (session : Uuid)
    (clock : Nat → Timestamp) :
    Nat → Tracker → σ → List SessionEvent → Tracker × σ
  | _, t, store, [] => (t, store)
  | count, t, store, event :: rest =>
    let (_, t, store) := t.track settings service store session (clock count) event
    write settings service session clock (count + 1) t store rest

/-- The store after the writer has emptied the queue. -/
def flush (r : Recorder) (settings : TrackingSettings) (service : StoreService σ)
    (clock : Nat → Timestamp) (store : σ) : σ :=
  (write settings service r.session clock 0 .new store (r.queue.getD [])).2

end Recorder
end PlanFlow
