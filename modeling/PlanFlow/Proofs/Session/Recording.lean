import Mathlib.Algebra.Group.Nat.Defs
import PlanFlow.Proofs.Session.Writers

/-!
# What is recorded of a run

A run starts its session, goes through stages, each of which is completed before the next one is
added, and closes the session.  A recorder whose calls all reach the store leaves one session with
exactly these stages, numbered from zero, and closes it once.
-/

namespace PlanFlow

/-- A stage that was gone through: what it was given, and what came of it. -/
structure StageReport where
  name : String
  input : Value
  result : Except String Value

namespace StageReport

/-- What is recorded as the output of a stage. -/
def output (r : StageReport) : Value :=
  match r.result with
  | .ok value => value
  | .error message => .object [("error", .string message)]

/-- The events of a stage. -/
def events (r : StageReport) : List SessionEvent :=
  [.addStage r.name r.input, .completeStage r.output]

/-- The record of the stage of an index, by a clock that is read once for each event. -/
def stage (clock : Nat → Timestamp) (index : Nat) (r : StageReport) : Stage :=
  ⟨index, r.name, r.input, some r.output, clock (2 * index + 1), some (clock (2 * index + 2))⟩

end StageReport

/-- How a run ends: with an output, or with a message about what went wrong. -/
inductive Ending where
  | completed (output : Value)
  | failed (message : String)

namespace Ending

/-- The event of an ending. -/
def event : Ending → SessionEvent
  | .completed output => .complete output
  | .failed message => .fail message

/-- The status of a session that has ended. -/
def status : Ending → SessionStatus
  | .completed output => .completed output
  | .failed message => .failed message

end Ending

/-- The session of a run, by a clock that is read once for each event. -/
def Session.ofRun (id : Uuid) (input : SessionInput) (provider : Option Provider)
    (reports : List StageReport) (ending : Ending) (clock : Nat → Timestamp) : Session where
  id := id
  path := input.path
  input := input
  provider := provider
  stages := reports.mapIdx (StageReport.stage clock)
  status := ending.status
  createdAt := clock 0
  closedAt := some (clock (2 * reports.length + 1))

/-- The events of a run. -/
def SessionEvent.ofRun (input : SessionInput) (provider : Option Provider)
    (reports : List StageReport) (ending : Ending) : List SessionEvent :=
  .start input provider :: (reports.flatMap StageReport.events ++ [ending.event])

/-! ## The writer of a run -/

/-- The completion of a stage that was just added completes that stage. -/
theorem completeIn_append {index : Nat} {stages : List Stage} {stage : Stage}
    (hstages : ∀ s ∈ stages, s.index < index) (hstage : stage.index = index) (output : Value)
    (time : Timestamp) :
    Session.completeIn index output time (stages ++ [stage]) =
      stages ++ [{ stage with output := some output, completedAt := some time }] := by
  induction stages with
  | nil => simp [Session.completeIn, hstage]
  | cons s rest ih =>
      obtain ⟨hs, hrest⟩ := List.forall_mem_cons.mp hstages
      rw [List.cons_append, Session.completeIn, if_neg (Nat.ne_of_lt hs), ih hrest]
      rfl

/-- The session with more stages. -/
def Session.appendStages (s : Session) (more : List Stage) : Session :=
  { s with stages := s.stages ++ more }

theorem Session.appendStages_nil (s : Session) : s.appendStages [] = s := by
  simp [appendStages]

/-- The session of an id is open between two stages, after so many of them. -/
structure Recording (id : Uuid) (count : Nat) (session : Session) (t : Tracker)
    (u : UnreliableStore) : Prop where
  reliable : u.Reliable
  tracker : t = ⟨.started id none, .ofNat count⟩
  view : u.view id = (some session, 0)
  indices : ∀ s ∈ session.stages, s.index < count

namespace Recorder

variable {settings : TrackingSettings} {id : Uuid} {clock : Nat → Timestamp}

/-- Handling events leads on from one to the next. -/
theorem write_append {σ : Type} (service : StoreService σ) (events more : List SessionEvent)
    (count : Nat) (t : Tracker) (store : σ) :
    write settings service id clock count t store (events ++ more) =
      write settings service id clock (count + events.length)
        (write settings service id clock count t store events).1
        (write settings service id clock count t store events).2 more := by
  induction events generalizing count t store with
  | nil => rfl
  | cons event rest ih =>
      rw [List.cons_append, List.length_cons, Nat.add_comm rest.length, ← Nat.add_assoc]
      exact ih ..

/-- A store that loses no calls ends up as one that there is nothing between. -/
theorem store_write {u : UnreliableStore} (hu : u.Reliable) (count : Nat) (t : Tracker)
    (events : List SessionEvent) :
    (write settings UnreliableStore.service id clock count t u events).2.store =
      (write settings SessionStore.service id clock count t u.store events).2 := by
  induction events generalizing count t u with
  | nil => rfl
  | cons event rest ih =>
      simp only [write, Tracker.snd_track]
      cases (t.handle id (clock count) event).2 with
      | none => exact ih hu (count + 1) _
      | some call =>
          have hcall : (UnreliableStore.service call u).2.store =
              (SessionStore.service call u.store).2 := by rw [hu.service]
          exact (ih (hu.snd_service call) (count + 1) _).trans (by rw [hcall]; rfl)

end Recorder

namespace SessionWriter

theorem queue_turns (w : SessionWriter) (u : UnreliableStore) (times : List Timestamp) :
    (w.turns u times).1.queue = w.queue.drop times.length := by
  induction times generalizing w u with
  | nil => rfl
  | cons now rest ih =>
      refine (ih (w.turn now u).1 (w.turn now u).2).trans ?_
      rw [turn_eq, List.length_cons]
      unfold handled
      split <;> rename_i hqueue <;> simp [hqueue]

/-- The turns by which a writer empties its queue do what a recorder does by a clock that shows
their times. -/
theorem turns_eq_write {w : SessionWriter} {times : List Timestamp}
    (hlength : w.queue.length ≤ times.length) (u : UnreliableStore) (count : Nat)
    {clock : Nat → Timestamp} (hclock : ∀ k now, times[k]? = some now → clock (count + k) = now) :
    (w.turns u times).2 = (Recorder.write w.settings UnreliableStore.service w.session clock count
      w.tracker u w.queue).2 := by
  induction times generalizing w u count with
  | nil =>
      obtain hqueue : w.queue = [] := List.eq_nil_of_length_eq_zero (Nat.le_zero.mp hlength)
      rw [hqueue]
      rfl
  | cons now rest ih =>
      have hrest (k : Nat) (later : Timestamp) (hk : rest[k]? = some later) :
          clock (count + 1 + k) = later := by
        rw [Nat.add_assoc, Nat.add_comm 1]
        exact hclock (k + 1) later hk
      have hnow : clock count = now := hclock 0 now rfl
      obtain ⟨settings, session, tracker, queue⟩ := w
      -- There may be turns to spare, in which nothing happens.
      cases queue with
      | nil => exact ih (Nat.zero_le _) u (count + 1) hrest
      | cons event queue =>
          rw [List.length_cons, List.length_cons, Nat.add_le_add_iff_right] at hlength
          simp only [turns, Recorder.write, hnow]
          exact ih hlength _ (count + 1) hrest

end SessionWriter

namespace Recording

variable (settings : TrackingSettings) (clock : Nat → Timestamp) {id : Uuid}
variable {t : Tracker} {u : UnreliableStore} {session : Session} {count : Nat}

open Recorder (write)

/-- What the store has for the id after one more call. -/
theorem view_call (hu : u.Reliable) {found : Option Session} {closes : Nat}
    (hview : u.view id = (found, closes)) {call : StoreCall} (hcall : call.session = id) :
    (UnreliableStore.service call u).2.view id =
      (call.effect found, closes + if call.isClose then 1 else 0) := by
  rw [hu.view_service, if_pos hcall, hview]

/-- At its start, a session has no stages. -/
theorem start (hu : u.Reliable) (hview : (u.view id).2 = 0) (input : SessionInput)
    (provider : Option Provider) :
    Recording id 0 (.start id input provider (clock 0))
      (write settings UnreliableStore.service id clock 0 .new u [.start input provider]).1
      (write settings UnreliableStore.service id clock 0 .new u [.start input provider]).2 := by
  let call : StoreCall := .create (.start id input provider (clock 0))
  have hwrite : write settings UnreliableStore.service id clock 0 .new u [.start input provider] =
      (⟨.started id none, 0⟩, (UnreliableStore.service call u).2) := rfl
  rw [hwrite]
  have hview' : u.view id = ((u.view id).1, 0) := Prod.ext rfl hview
  exact ⟨hu.snd_service call, rfl, view_call hu hview' rfl, nofun⟩

/-- A stage is recorded with its output, and is over before the next one begins. -/
theorem stage (h : Recording id count session t u) (hcount : count < 2 ^ 32) (r : StageReport) :
    Recording id (count + 1) (session.appendStage (r.stage clock count))
      (write settings UnreliableStore.service id clock (2 * count + 1) t u r.events).1
      (write settings UnreliableStore.service id clock (2 * count + 1) t u r.events).2 := by
  obtain ⟨hreliable, rfl, hview, hindices⟩ := h
  let added : Stage := ⟨count, r.name, r.input, none, clock (2 * count + 1), none⟩
  let append : StoreCall := .append id added
  let complete : StoreCall := .complete id count r.output (clock (2 * count + 2))
  let u' := (UnreliableStore.service append u).2
  have hwrite : write settings UnreliableStore.service id clock (2 * count + 1)
      ⟨.started id none, .ofNat count⟩ u r.events =
        (⟨.started id none, .ofNat (count + 1)⟩, (UnreliableStore.service complete u').2) := by
    have hindex : (UInt32.ofNat count).toNat = count := UInt32.toNat_ofNat_of_lt' hcount
    simp only [StageReport.events, write, Tracker.snd_track, Tracker.handle, Option.elim_some,
      Option.getD_some, hindex, UInt32.ofNat_add]
    rfl
  have hreliable' : u'.Reliable := hreliable.snd_service append
  have hview' : u'.view id = (some (session.appendStage added), 0) :=
    view_call hreliable hview rfl
  have hcompleted : (session.appendStage added).completeStage count r.output
      (clock (2 * count + 2)) = session.appendStage (r.stage clock count) := by
    simp only [Session.completeStage, Session.appendStage]
    rw [completeIn_append hindices rfl]
    rfl
  rw [hwrite]
  refine ⟨hreliable'.snd_service complete, rfl, ?_, ?_⟩
  · rw [view_call hreliable' hview' rfl, ← hcompleted]
    rfl
  · intro s hs
    rcases List.mem_append.mp hs with hs | hs
    · exact Nat.lt_succ_of_lt (hindices s hs)
    · rw [List.mem_singleton.mp hs]
      exact Nat.lt_succ_self count

/-- So are several stages, one after the other, if there are indices for them. -/
theorem stages (h : Recording id count session t u) {reports : List StageReport}
    (hreports : count + reports.length ≤ 2 ^ 32) :
    Recording id (count + reports.length)
      (session.appendStages (reports.mapIdx fun i r => r.stage clock (count + i)))
      (write settings UnreliableStore.service id clock (2 * count + 1) t u
        (reports.flatMap StageReport.events)).1
      (write settings UnreliableStore.service id clock (2 * count + 1) t u
        (reports.flatMap StageReport.events)).2 := by
  induction reports generalizing count session t u with
  | nil => exact (Session.appendStages_nil session).symm ▸ h
  | cons r rest ih =>
      have hstages : (session.appendStage (r.stage clock count)).appendStages
          (rest.mapIdx fun i r => r.stage clock (count + 1 + i)) =
            session.appendStages ((r :: rest).mapIdx fun i r => r.stage clock (count + i)) := by
        simp [Session.appendStages, Session.appendStage, List.mapIdx_cons, Nat.add_assoc,
          Nat.add_comm 1]
      have hlength : count + 1 + rest.length = count + (r :: rest).length := by
        rw [List.length_cons]
        omega
      have hrest := ih (h.stage settings clock (by omega) r) (by omega)
      rw [hstages, hlength] at hrest
      -- A stage has two events, so the next stage is as many events later as `ih` says.
      rw [List.flatMap_cons, Recorder.write_append]
      exact hrest

/-- At its end, a session is closed once. -/
theorem close (h : Recording id count session t u) (ending : Ending) :
    (write settings UnreliableStore.service id clock (2 * count + 1) t u [ending.event]).2.view id =
      (some (session.close ending.status (clock (2 * count + 1))), 1) := by
  obtain ⟨hreliable, rfl, hview, -⟩ := h
  cases ending <;> exact view_call hreliable hview rfl

end Recording

theorem length_flatMap_events (reports : List StageReport) :
    (reports.flatMap StageReport.events).length = 2 * reports.length := by
  induction reports with
  | nil => rfl
  | cons r rest ih =>
      rw [List.flatMap_cons, List.length_append, ih, List.length_cons]
      show 2 + 2 * rest.length = 2 * (rest.length + 1)
      omega

/-- The events of a run leave its session in the store, and close it once. -/
theorem Recorder.view_write {settings : TrackingSettings} {id : Uuid} {u : UnreliableStore}
    (hu : u.Reliable) (hview : (u.view id).2 = 0) (input : SessionInput)
    (provider : Option Provider) {reports : List StageReport} (hreports : reports.length ≤ 2 ^ 32)
    (ending : Ending) (clock : Nat → Timestamp) :
    (write settings UnreliableStore.service id clock 0 .new u
        (SessionEvent.ofRun input provider reports ending)).2.view id =
      (some (.ofRun id input provider reports ending clock), 1) := by
  have hstarted := Recording.start settings clock hu hview input provider
  have hstages := hstarted.stages settings clock (by rwa [Nat.zero_add])
  have hclosed := hstages.close settings clock ending
  have hcount : 1 + (reports.flatMap StageReport.events).length = 2 * (0 + reports.length) + 1 := by
    rw [length_flatMap_events]
    omega
  have hsession : ((Session.start id input provider (clock 0)).appendStages
      (reports.mapIdx fun i r => r.stage clock (0 + i))).close ending.status
        (clock (2 * (0 + reports.length) + 1)) =
          .ofRun id input provider reports ending clock := by
    simp [Session.ofRun, Session.close, Session.appendStages, Session.start]
  rw [hsession, ← hcount] at hclosed
  rw [SessionEvent.ofRun, ← List.singleton_append, write_append, write_append]
  exact hclosed

end PlanFlow
