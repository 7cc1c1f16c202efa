import PlanFlow.Proofs.Pipeline.Reports

/-!
# The sessions of runs that share a store

Any number of runs may be recorded in one store at a time, and their writers take turns in any
order.  Once all queues are empty, the store has one session for each run.  It is the one that the
run would have left in a store of its own, and it was closed once.
-/

namespace PlanFlow

namespace Ending

/-- How a run with a result ends. -/
def ofResult : Except PipelineFault Outcome → Ending
  | .ok (.success w) => .completed (Outcome.success w).encode.canonical
  | .ok (.failure errors _) => .failed ("; ".intercalate (errors.map PlanError.message))
  | .error fault => .failed fault.message

theorem event_ofResult (result : Except PipelineFault Outcome) :
    (ofResult result).event = Pipeline.closing result := by
  rcases result with fault | (w | ⟨errors, warnings⟩) <;> rfl

/-- Only a run that ends with a workflow is completed. -/
theorem status_ofResult_iff (result : Except PipelineFault Outcome) :
    (∃ output, (ofResult result).status = .completed output) ↔ ∃ w, result = .ok (.success w) := by
  rcases result with fault | (w | ⟨errors, warnings⟩) <;> simp [ofResult, status]

end Ending

namespace Recorder

theorem session_sendAll (r : Recorder) (events : List SessionEvent) :
    (r.sendAll events).session = r.session := by
  induction events generalizing r with
  | nil => rfl
  | cons event rest ih => exact ih (r.send event)

theorem queue_sendAll {r : Recorder} {queue : List SessionEvent} (h : r.queue = some queue)
    (events : List SessionEvent) : (r.sendAll events).queue = some (queue ++ events) := by
  induction events generalizing r queue with
  | nil => rw [List.append_nil, ← h]; rfl
  | cons event rest ih =>
      have hsend : (r.send event).queue = some (queue ++ [event]) := by simp [send, h]
      exact (ih hsend).trans (by rw [List.append_assoc]; rfl)

end Recorder

/-- A run of a pipeline, with the id of its session and the settings by which it is recorded. -/
structure PipelineRun where
  pipeline : Pipeline
  settings : TrackingSettings
  session : Uuid
  entry : PipelineEntry

namespace PipelineRun

variable (r : PipelineRun)

/-- What comes of the run. -/
def result : Except PipelineFault Outcome := (r.pipeline.run r.session r.entry).1

/-- The recorder of the run, with all its events in the queue. -/
def recorder : Recorder := (r.pipeline.run r.session r.entry).2

/-- The writer of the run. -/
def writer : SessionWriter := .ofRecorder r.settings r.recorder

/-- The session of the run, by a clock that is read once for each event. -/
def record (clock : Nat → Timestamp) : Session :=
  .ofRun r.session r.entry.sessionInput (r.pipeline.providerOf r.entry)
    (r.pipeline.reports r.entry) (.ofResult r.result) clock

theorem session_recorder : r.recorder.session = r.session :=
  Recorder.session_sendAll (.spawn r.session true) (r.pipeline.events r.entry)

/-- The queue starts the session, goes through the stages and closes the session. -/
theorem queue_writer :
    r.writer.queue = SessionEvent.ofRun r.entry.sessionInput (r.pipeline.providerOf r.entry)
      (r.pipeline.reports r.entry) (.ofResult r.result) := by
  have hspawn : (Recorder.spawn r.session true).queue = some [] := rfl
  have hqueue : r.recorder.queue = some (r.pipeline.events r.entry) :=
    Recorder.queue_sendAll hspawn (r.pipeline.events r.entry)
  show r.recorder.queue.getD [] = _
  rw [hqueue, SessionEvent.ofRun, Ending.event_ofResult, ← r.pipeline.execute_events]
  rfl

/-- A run that is alone leaves its session in the store. -/
theorem view_write (clock : Nat → Timestamp) :
    (Recorder.write r.settings UnreliableStore.service r.session clock 0 .new (.withFates [])
      r.writer.queue).2.view r.session = (some (r.record clock), 1) := by
  have hu : (UnreliableStore.withFates []).Reliable := rfl
  have hreports : (r.pipeline.reports r.entry).length ≤ 2 ^ 32 :=
    Nat.le_trans (r.pipeline.length_reports_le r.entry) (by decide)
  rw [queue_writer]
  exact Recorder.view_write hu rfl _ _ hreports _ _

theorem get?_flush (clock : Nat → Timestamp) :
    (r.recorder.flush r.settings SessionStore.service clock .empty).get? r.session =
      some (r.record clock) := by
  have hu : (UnreliableStore.withFates []).Reliable := rfl
  have hstore : (Recorder.write r.settings UnreliableStore.service r.session clock 0 .new
      (.withFates []) r.writer.queue).2.store =
        (Recorder.write r.settings SessionStore.service r.session clock 0 .new .empty
          r.writer.queue).2 := Recorder.store_write hu 0 .new r.writer.queue
  have hview := congrArg Prod.fst (r.view_write clock)
  rw [UnreliableStore.view, hstore] at hview
  rw [Recorder.flush, session_recorder]
  exact hview

end PipelineRun

namespace Writers

/-- The writers of runs, before their first turn, and an empty store. -/
def ofRuns (runs : List PipelineRun) : Writers := ⟨runs.map PipelineRun.writer, .withFates []⟩

/-- The clock of a writer: it shows the times of the writer's turns. -/
def clockOf (i : Nat) (schedule : List (Nat × Timestamp)) (count : Nat) : Timestamp :=
  (timesOf i schedule).getD count default

variable {runs : List PipelineRun}

theorem map_session_ofRuns (runs : List PipelineRun) :
    (ofRuns runs).writers.map SessionWriter.session = runs.map PipelineRun.session := by
  rw [ofRuns, List.map_map]
  exact List.map_congr_left fun r _ => r.session_recorder

theorem wellFormed_ofRuns (hids : (runs.map PipelineRun.session).Nodup) :
    (ofRuns runs).WellFormed where
  nodup := map_session_ofRuns runs ▸ hids
  owns := by
    intro w hw
    obtain ⟨r, -, rfl⟩ := List.mem_map.mp hw
    exact SessionWriter.owns_ofRecorder r.settings r.recorder
  reliable := rfl

/-- What the store has for a run at the end. -/
theorem view_of_runs (hids : (runs.map PipelineRun.session).Nodup)
    {schedule : List (Nat × Timestamp)}
    (hempty : ∀ w ∈ ((ofRuns runs).run schedule).writers, w.queue = [])
    {i : Nat} {r : PipelineRun} (hr : runs[i]? = some r) :
    ((ofRuns runs).run schedule).store.view r.session =
      (some (r.record (clockOf i schedule)), 1) := by
  have hwriter : (ofRuns runs).writers[i]? = some r.writer := by
    rw [ofRuns, List.getElem?_map, hr, Option.map_some]
  obtain ⟨hlast, hview⟩ := (wellFormed_ofRuns hids).run_eq_turns schedule hwriter
  -- A queue that is empty at the end has had a turn for each of its events.
  have hqueue := hempty _ (List.mem_of_getElem? hlast)
  rw [SessionWriter.queue_turns, List.drop_eq_nil_iff] at hqueue
  have hclock (k : Nat) (now : Timestamp) (hnow : (timesOf i schedule)[k]? = some now) :
      clockOf i schedule (0 + k) = now := by
    rw [clockOf, Nat.zero_add, List.getD_eq_getElem?_getD, hnow, Option.getD_some]
  have hsession : r.writer.session = r.session := r.session_recorder
  rw [SessionWriter.turns_eq_write hqueue _ 0 hclock, hsession] at hview
  exact hview.trans (r.view_write (clockOf i schedule))

/-- Once the writers of runs of distinct sessions have emptied their queues, in whatever order they
took turns, the store has one session for each run.  It is the one that the run leaves in a store of
its own.  It was closed once, as completed if the run ended with a workflow, and it has the stages
of the run up to the first one that failed. -/
theorem sessions_of_runs (hids : (runs.map PipelineRun.session).Nodup)
    {schedule : List (Nat × Timestamp)}
    (hempty : ∀ w ∈ ((ofRuns runs).run schedule).writers, w.queue = []) :
    ((ofRuns runs).run schedule).storedIds.Perm (runs.map PipelineRun.session) ∧
      ∀ (i : Nat) (r : PipelineRun), runs[i]? = some r →
        ((ofRuns runs).run schedule).store.view r.session =
            (some (r.record (clockOf i schedule)), 1) ∧
          (r.recorder.flush r.settings SessionStore.service (clockOf i schedule) .empty).get?
            r.session = some (r.record (clockOf i schedule)) ∧
          r.pipeline.Reported r.entry ∧
          ((∃ output, (r.record (clockOf i schedule)).status = .completed output) ↔
            ∃ w, r.result = .ok (.success w)) := by
  have hviews {i : Nat} {r : PipelineRun} (hr : runs[i]? = some r) :=
    view_of_runs hids hempty hr
  refine ⟨?_, fun i r hr => ⟨hviews hr, r.get?_flush _, r.pipeline.reported r.entry,
    Ending.status_ofResult_iff r.result⟩⟩
  have hstores : (ofRuns runs).Stores := ⟨List.nodup_nil, List.nil_subset _⟩
  obtain ⟨-, ⟨hnodup, hsubset⟩, hsessions⟩ := (wellFormed_ofRuns hids).run hstores schedule
  rw [hsessions, map_session_ofRuns] at hsubset
  -- No id is repeated in either list, so what is left is that they have the same ids.
  refine (List.perm_ext_iff_of_nodup hnodup hids).mpr fun id => ⟨@hsubset id, fun hid => ?_⟩
  obtain ⟨r, hr, rfl⟩ := List.mem_map.mp hid
  obtain ⟨i, hi⟩ := List.getElem?_of_mem hr
  rw [storedIds, SessionStore.mem_ids_iff]
  exact Option.isSome_of_eq_some (congrArg Prod.fst (hviews hi))

/-- A run that lacks a generator, and a run that needs none, of a pipeline without collaborators. -/
def bareRuns (p : Plan) : List PipelineRun :=
  let bare : Pipeline := ⟨.standard default, none, none⟩
  [⟨bare, default, ⟨0⟩, .prompt "Sort the mail"⟩, ⟨bare, default, ⟨1⟩, .plan p⟩]

/-- Turns of the writers of two runs, at one moment. -/
def inTurn : List (Nat × Timestamp) := [1, 0, 1, 1, 0, 1].map fun i => (i, default)

/-- The first run ends without a stage, while the other one goes on. -/
theorem sessions_of_runs_bareRuns :
    ((bareRuns default).map PipelineRun.session).Nodup ∧
      (∀ w ∈ ((ofRuns (bareRuns default)).run inTurn).writers, w.queue = []) ∧
      ((ofRuns (bareRuns default)).run inTurn).storedIds.Perm [⟨0⟩, ⟨1⟩] ∧
      ∃ session, ((ofRuns (bareRuns default)).run inTurn).store.view ⟨0⟩ = (some session, 1) ∧
        session.stages = [] ∧ session.status =
          .failed
            "Pipeline entry 'from_prompt' needs a plan generator, but none was configured" := by
  have hids : ((bareRuns default).map PipelineRun.session).Nodup := by
    show [(⟨0⟩ : Uuid), ⟨1⟩].Nodup
    decide
  have hqueues : ((ofRuns (bareRuns default)).run inTurn).writers.map SessionWriter.queue =
      [[], []] := rfl
  have hempty : ∀ w ∈ ((ofRuns (bareRuns default)).run inTurn).writers, w.queue = [] := by
    intro w hw
    have hqueue := List.mem_map_of_mem (f := SessionWriter.queue) hw
    rw [hqueues] at hqueue
    simpa using hqueue
  obtain ⟨hstored, hruns⟩ := sessions_of_runs hids hempty
  have hmessage : (PipelineFault.missingCollaborator "from_prompt" "plan generator").message =
      "Pipeline entry 'from_prompt' needs a plan generator, but none was configured" := by
    decide +kernel
  exact ⟨hids, hempty, hstored, _, (hruns 0 _ rfl).1, rfl, congrArg SessionStatus.failed hmessage⟩

end Writers
end PlanFlow
