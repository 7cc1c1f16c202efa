import PlanFlow.Proofs.Pipeline.Sessions
import PlanFlow.Proofs.Session.Losses

/-!
# Runs that are recorded in part

Any of the calls by which a run is recorded may be lost.  What comes of the run is the same, and the
calls that the run attempts are the same too.  Those that are applied leave a part of the record
that the run leaves in a store which loses nothing.
-/

namespace PlanFlow
namespace PipelineRun

variable (r : PipelineRun)

/-- The calls by which the run is recorded. -/
def calls (clock : Nat → Timestamp) : List StoreCall :=
  StoreCall.ofRun r.session r.entry.sessionInput (r.pipeline.providerOf r.entry)
    (r.pipeline.reports r.entry) (.ofResult r.result) clock

/-- What comes of the run, and the store in which it is recorded. -/
def recordedIn (clock : Nat → Timestamp) (u : UnreliableStore) :
    Except PipelineFault Outcome × UnreliableStore :=
  let (result, recorder) := r.pipeline.run r.session r.entry
  (result, recorder.flush r.settings UnreliableStore.service clock u)

/-- Every stage of a run has a name. -/
theorem name_ne_empty : ∀ report ∈ r.pipeline.reports r.entry, report.name ≠ "" := by
  have hstages : ∀ name ∈ Pipeline.stagesOf r.entry, name ≠ "" := by
    cases r.entry <;> simp [Pipeline.stagesOf, Pipeline.generationStage, Pipeline.reviewStage,
      Pipeline.normalizationStage, Pipeline.compilationStage]
  intro report hreport
  exact hstages _ ((r.pipeline.reported r.entry).names.subset (List.mem_map_of_mem hreport))

/-- The store after the run is the store after its calls. -/
theorem snd_recordedIn (clock : Nat → Timestamp) (u : UnreliableStore) :
    (r.recordedIn clock u).2 = u.serve (r.calls clock) := by
  show r.recorder.flush r.settings UnreliableStore.service clock u = _
  have hqueue : r.recorder.queue.getD [] = SessionEvent.ofRun r.entry.sessionInput
      (r.pipeline.providerOf r.entry) (r.pipeline.reports r.entry) (.ofResult r.result) :=
    r.queue_writer
  rw [Recorder.flush, hqueue, session_recorder, Recorder.write_eq_run]
  refine (Surroundings.store_run ..).trans ?_
  have hreports : (r.pipeline.reports r.entry).length ≤ 2 ^ 32 :=
    Nat.le_trans (r.pipeline.length_reports_le r.entry) (by decide)
  rw [Tracker.calls_ofRun _ _ _ hreports]
  rfl

/-- Whichever calls of a run are lost, what comes of the run and what it attempts stay the same.  If
the call that creates the session is lost, there is none; and else what is recorded is the part of
the record that the other calls leave. -/
theorem isPartOf_of_losses (clock : Nat → Timestamp) {store : SessionStore}
    (hnew : store.get? r.session = none) (fates : List Fate) :
    let recorded := r.recordedIn clock ⟨store, fates, []⟩
    recorded.1 = (r.pipeline.execute r.entry).result ∧
      recorded.2.log = (r.calls clock).mapIdx (fun i call => (call, fates.getD i .reaches)) ∧
      ((¬∃ call ∈ recorded.2.applied, call.isCreate) →
        recorded.2.store.get? r.session = none) ∧
      ((∃ call ∈ recorded.2.applied, call.isCreate) →
        ∃ session, recorded.2.store.get? r.session = some session ∧
          session.IsPartOf (r.record clock) (r.pipeline.reports r.entry) recorded.2.applied) := by
  intro recorded
  let u : UnreliableStore := ⟨store, fates, []⟩
  have hserve : recorded.2 = u.serve (r.calls clock) := r.snd_recordedIn clock u
  have hlog : recorded.2.log =
      (r.calls clock).mapIdx fun i call => (call, fates.getD i .reaches) := by
    rw [hserve, UnreliableStore.log_serve]
    rfl
  have happlied : List.Sublist recorded.2.applied (r.calls clock) := by
    have hcalls : recorded.2.log.map Prod.fst = r.calls clock := by
      rw [hserve, UnreliableStore.map_fst_log_serve]
      rfl
    exact hcalls ▸ recorded.2.applied_sublist
  have hstore : recorded.2.store = store.serve recorded.2.applied := by
    rw [hserve]
    exact UnreliableStore.store_serve rfl (r.calls clock)
  have hget : recorded.2.store.get? r.session = StoreCall.effects recorded.2.applied none := by
    rw [hstore, ← hnew]
    exact SessionStore.get?_serve
      (fun call hcall => StoreCall.session_of_mem_ofRun (happlied.subset hcall)) store
  rw [hget]
  exact ⟨rfl, hlog, StoreCall.effects_of_sublist r.name_ne_empty happlied⟩

/-- A run whose generator cannot be reached. -/
def offline : PipelineRun where
  pipeline := ⟨.standard default, some ⟨default, fun _ =>
    .error (.stageFailed Pipeline.generationStage "offline")⟩, none⟩
  settings := default
  session := ⟨0⟩
  entry := .prompt "Sort the mail"

/-- If the append and the close are lost, the stage has no name and the session no end. -/
theorem isPartOf_of_losses_offline :
    let recorded := offline.recordedIn (fun _ => default)
      ⟨.empty, [.reaches, .lost, .reaches, .refused "full"], []⟩
    SessionStore.empty.get? offline.session = none ∧
      ∃ session, recorded.2.store.get? offline.session = some session ∧
        session.IsPartOf (offline.record fun _ => default)
          (offline.pipeline.reports offline.entry) recorded.2.applied ∧
        session.stages.map (fun stage => (stage.index, stage.name, stage.output.isSome)) =
          [(0, "", true)] ∧
        session.status = .inProgress := by
  intro recorded
  have hnew : SessionStore.empty.get? offline.session = none := rfl
  obtain ⟨-, -, -, hcreated⟩ := isPartOf_of_losses offline (fun _ => default) hnew
    [.reaches, .lost, .reaches, .refused "full"]
  obtain ⟨session, hfound, hpart⟩ := hcreated ⟨_, List.mem_cons_self, rfl⟩
  refine ⟨hnew, session, hfound, hpart, ?_, ?_⟩
  · exact (Option.some.inj (congrArg (Option.map fun s : Session =>
      s.stages.map fun stage => (stage.index, stage.name, stage.output.isSome)) hfound)).symm
  · exact (Option.some.inj (congrArg (Option.map Session.status) hfound)).symm

end PipelineRun
end PlanFlow
