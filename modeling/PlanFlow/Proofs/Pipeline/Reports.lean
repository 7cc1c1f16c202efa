import PlanFlow.Pipeline.Basic
import PlanFlow.Proofs.Session.Recording

/-!
# The stages of a run

An entry of the pipeline has a fixed sequence of stages.  A run goes through them until one fails,
and each stage that it reaches is reported with what came of it.  A run that lacks a collaborator
ends before its first stage.  The events of a run are those of its reports, between the start and
the close of its session.
-/

namespace PlanFlow

namespace StageReport

/-- The stage has a result, with which the run goes on. -/
def HasResult (r : StageReport) : Prop := ∃ value, r.result = .ok value

/-- The report of a stage on its input. -/
def of {α : Type} (name : String) (input : Value) (encode : α → Value)
    (result : Except PipelineFault α) : StageReport where
  name := name
  input := input.canonical
  result := match result with
    | .ok a => .ok (encode a).canonical
    | .error fault => .error fault.message

/-- The reports of what follows a stage, if the stage has a result. -/
def following {α : Type} (result : Except PipelineFault α) (next : α → List StageReport) :
    List StageReport :=
  match result with
  | .ok a => next a
  | .error _ => []

end StageReport

/-! ## Trails that report their stages -/

namespace Trail

variable {α β : Type} {names more : List String} {reports : List StageReport}

theorem andThen_assoc {γ : Type} (t : Trail α) (f : α → Trail β) (g : β → Trail γ) :
    (t.andThen f).andThen g = t.andThen fun a => (f a).andThen g := by
  obtain ⟨events, result⟩ := t
  cases result with
  | error fault => rfl
  | ok a =>
      simp only [andThen]
      cases (f a).result <;> simp

/-- A trail goes through stages of some names, up to the end or to the first one that fails. -/
structure Tells (t : Trail α) (names : List String) (reports : List StageReport) : Prop where
  events : t.events = reports.flatMap StageReport.events
  finished : ∀ a, t.result = .ok a →
    reports.map StageReport.name = names ∧ ∀ r ∈ reports, r.HasResult
  stopped : ∀ fault, t.result = .error fault → ∃ before last,
    reports = before ++ [last] ∧ (∀ r ∈ before, r.HasResult) ∧
      last.result = .error fault.message ∧ reports.map StageReport.name <+: names

/-- A stage is a trail on its own. -/
theorem tells_stage (name : String) (input : Value) (encode : α → Value)
    (result : Except PipelineFault α) :
    (stage name input encode result).Tells [name] [.of name input encode result] where
  events := by
    cases result <;> rfl
  finished := by
    rintro a (rfl : result = .ok a)
    exact ⟨rfl, List.forall_mem_singleton.mpr ⟨_, rfl⟩⟩
  stopped := by
    rintro fault (rfl : result = .error fault)
    exact ⟨[], _, rfl, nofun, rfl, List.prefix_refl _⟩

/-- What follows a trail is reported after it, unless the trail has stopped. -/
theorem Tells.andThen {t : Trail α} (h : t.Tells names reports) {next : α → Trail β}
    {later : α → List StageReport} (hnext : ∀ a, (next a).Tells more (later a)) :
    (t.andThen next).Tells (names ++ more) (reports ++ StageReport.following t.result later) := by
  obtain ⟨events, result⟩ := t
  obtain ⟨hevents, hfinished, hstopped⟩ := h
  obtain rfl : events = reports.flatMap StageReport.events := hevents
  cases result with
  | ok a =>
      obtain ⟨hnames, hall⟩ := hfinished a rfl
      obtain ⟨hevents', hfinished', hstopped'⟩ := hnext a
      refine ⟨?_, fun b hb => ?_, fun fault hfault => ?_⟩
      · rw [List.flatMap_append]
        exact congrArg _ hevents'
      · obtain ⟨hnames', hall'⟩ := hfinished' b hb
        refine ⟨?_, fun r hr => (List.mem_append.mp hr).elim (hall r) (hall' r)⟩
        rw [List.map_append, hnames]
        exact congrArg _ hnames'
      · obtain ⟨before, last, hlater, hbefore, hlast, hmore⟩ := hstopped' fault hfault
        refine ⟨reports ++ before, last, ?_, fun r hr => ?_, hlast, ?_⟩
        · rw [List.append_assoc, ← hlater]
          rfl
        · exact (List.mem_append.mp hr).elim (hall r) (hbefore r)
        · rw [List.map_append, hnames]
          exact (List.prefix_append_right_inj names).mpr hmore
  | error fault =>
      refine ⟨?_, nofun, fun fault' hfault => ?_⟩
      · rw [StageReport.following, List.append_nil]
        rfl
      · obtain rfl : fault = fault' := Except.error.inj hfault
        obtain ⟨before, last, hreports, hbefore, hlast, hnames⟩ := hstopped fault rfl
        rw [StageReport.following, List.append_nil]
        exact ⟨before, last, hreports, hbefore, hlast, hnames.trans (List.prefix_append names more)⟩

end Trail

namespace Pipeline

/-- The stages that an entry goes through if none fails. -/
def stagesOf : PipelineEntry → List String
  | .prompt _ => [generationStage, compilationStage]
  | .plan _ => [compilationStage]
  | .draft _ _ => [reviewStage, normalizationStage, compilationStage]
  | .reviewedDraft _ => [normalizationStage, compilationStage]

/-- The collaborator that an entry needs and that is not there. -/
def missing? (pipeline : Pipeline) : PipelineEntry → Option String
  | .prompt _ => if pipeline.generator.isNone then some "plan generator" else none
  | .draft _ _ => if pipeline.reviewer.isNone then some "workflow reviewer" else none
  | .plan _ | .reviewedDraft _ => none

/-- The report of the compilation of a plan. -/
def compilationReports (pipeline : Pipeline) (p : Plan) : List StageReport :=
  [.of compilationStage p.encode Outcome.encode (.ok (pipeline.compiler.compile p))]

/-- The reports from the normalization of a draft on. -/
def normalizationReports (pipeline : Pipeline) (d : Draft) : List StageReport :=
  let plan := d.toPlan.mapError PipelineFault.draft
  .of normalizationStage d.encode Plan.encode plan ::
    StageReport.following plan pipeline.compilationReports

/-- The reports of a run: of each stage that is reached, with its input and what came of it. -/
def reports (pipeline : Pipeline) : PipelineEntry → List StageReport
  | .prompt text =>
    match pipeline.generator with
    | none => []
    | some generator =>
      let plan := generator.generate text
      .of generationStage (.object [("prompt", .string text)]) Plan.encode plan ::
        StageReport.following plan pipeline.compilationReports
  | .plan p => pipeline.compilationReports p
  | .draft d correction =>
    match pipeline.reviewer with
    | none => []
    | some reviewer =>
      let reviewed := reviewer.review d correction
      .of reviewStage
        (.object [("workflow", d.encode), ("correction", .ofOption .string correction)])
        Draft.encode reviewed ::
          StageReport.following reviewed pipeline.normalizationReports
  | .reviewedDraft d => pipeline.normalizationReports d

variable (pipeline : Pipeline)

theorem compile_tells (p : Plan) :
    (pipeline.compile p).Tells [compilationStage] (pipeline.compilationReports p) :=
  Trail.tells_stage ..

theorem normalize_tells (d : Draft) :
    ((normalize d).andThen pipeline.compile).Tells [normalizationStage, compilationStage]
      (pipeline.normalizationReports d) :=
  (Trail.tells_stage ..).andThen pipeline.compile_tells

/-- A run that lacks a collaborator ends before its first stage. -/
theorem execute_of_missing {entry : PipelineEntry} {collaborator : String}
    (h : pipeline.missing? entry = some collaborator) :
    pipeline.execute entry = .stop (.missingCollaborator entry.name collaborator) ∧
      pipeline.reports entry = [] := by
  obtain ⟨compiler, generator, reviewer⟩ := pipeline
  cases entry with
  | prompt text =>
      cases generator with
      | none =>
          obtain rfl := Option.some.inj h
          exact ⟨rfl, rfl⟩
      | some generator => cases h
  | draft d correction =>
      cases reviewer with
      | none =>
          obtain rfl := Option.some.inj h
          exact ⟨rfl, rfl⟩
      | some reviewer => cases h
  | plan p => cases h
  | reviewedDraft d => cases h

/-- Any other run goes through the stages of its entry, up to the first one that fails. -/
theorem execute_tells {entry : PipelineEntry} (h : pipeline.missing? entry = none) :
    (pipeline.execute entry).Tells (stagesOf entry) (pipeline.reports entry) := by
  obtain ⟨compiler, generator, reviewer⟩ := pipeline
  let pipeline : Pipeline := ⟨compiler, generator, reviewer⟩
  cases entry with
  | prompt text =>
      cases generator with
      | none => cases h
      | some generator => exact (Trail.tells_stage ..).andThen pipeline.compile_tells
  | draft d correction =>
      cases reviewer with
      | none => cases h
      | some reviewer =>
          let input : Value :=
            .object [("workflow", d.encode), ("correction", .ofOption .string correction)]
          -- The plan of a draft is a trail of two stages, which the compilation follows.
          have htells := (Trail.tells_stage reviewStage input Draft.encode
            (reviewer.review d correction)).andThen pipeline.normalize_tells
          rw [← Trail.andThen_assoc] at htells
          exact htells
  | plan p => exact pipeline.compile_tells p
  | reviewedDraft d => exact pipeline.normalize_tells d

/-- A run reports the stages of its entry, up to the end or to the first one that has no result. -/
structure Reported (entry : PipelineEntry) : Prop where
  names : (pipeline.reports entry).map StageReport.name <+: stagesOf entry
  finished : ∀ outcome, (pipeline.execute entry).result = .ok outcome →
    (pipeline.reports entry).map StageReport.name = stagesOf entry ∧
      ∀ r ∈ pipeline.reports entry, r.HasResult
  stopped : ∀ fault, (pipeline.execute entry).result = .error fault →
    (∃ collaborator, pipeline.missing? entry = some collaborator ∧
      fault = .missingCollaborator entry.name collaborator ∧ pipeline.reports entry = []) ∨
    ∃ before last, pipeline.reports entry = before ++ [last] ∧ (∀ r ∈ before, r.HasResult) ∧
      last.result = .error fault.message

theorem reported (entry : PipelineEntry) : pipeline.Reported entry := by
  cases hmissing : pipeline.missing? entry with
  | some collaborator =>
      obtain ⟨hexecute, hreports⟩ := pipeline.execute_of_missing hmissing
      refine ⟨?_, fun outcome houtcome => ?_, fun fault hfault => .inl ⟨collaborator, hmissing, ?_⟩⟩
      · rw [hreports]
        exact List.nil_prefix
      · rw [hexecute] at houtcome
        cases houtcome
      · rw [hexecute] at hfault
        exact ⟨(Except.error.inj hfault).symm, hreports⟩
  | none =>
      obtain ⟨-, hfinished, hstopped⟩ := pipeline.execute_tells hmissing
      refine ⟨?_, hfinished, fun fault hfault => .inr ?_⟩
      · cases hresult : (pipeline.execute entry).result with
        | ok outcome => exact (hfinished outcome hresult).1 ▸ List.prefix_refl _
        | error fault =>
            obtain ⟨-, -, -, -, -, hnames⟩ := hstopped fault hresult
            exact hnames
      · obtain ⟨before, last, hreports, hbefore, hlast, -⟩ := hstopped fault hfault
        exact ⟨before, last, hreports, hbefore, hlast⟩

/-- A run has no more stages than its entry. -/
theorem length_reports_le (entry : PipelineEntry) : (pipeline.reports entry).length ≤ 3 := by
  have hnames := (pipeline.reported entry).names.length_le
  have hstages : (stagesOf entry).length ≤ 3 := by cases entry <;> simp [stagesOf]
  rw [List.length_map] at hnames
  exact Nat.le_trans hnames hstages

/-- The events of the stages of a run are those of its reports. -/
theorem execute_events (entry : PipelineEntry) :
    (pipeline.execute entry).events = (pipeline.reports entry).flatMap StageReport.events := by
  cases hmissing : pipeline.missing? entry with
  | some collaborator =>
      obtain ⟨hexecute, hreports⟩ := pipeline.execute_of_missing hmissing
      rw [hexecute, hreports]
      rfl
  | none => exact (pipeline.execute_tells hmissing).events

end Pipeline
end PlanFlow
