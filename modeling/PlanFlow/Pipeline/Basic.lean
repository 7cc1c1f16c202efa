import PlanFlow.Compiler
import PlanFlow.Pipeline.Trail
import PlanFlow.Session.Recorder

/-!
# The generation pipeline

A run of the pipeline ends with a compilation.  It may start from a prompt, for which a generator
makes a plan; from a plan; from a draft that a reviewer still has to look at; or from a draft that
was reviewed before.  Every stage that is reached is recorded, and the record is closed at the end.
What comes of the run does not depend on whether it could be recorded.
-/

namespace PlanFlow

/-- Makes plans from prompts. -/
structure PlanGenerator where
  provider : Provider
  generate : String → Except PipelineFault Plan

/-- Reviews drafts, possibly by applying a correction. -/
structure DraftReviewer where
  provider : Provider
  review : Draft → Option String → Except PipelineFault Draft

/-- Where a run starts. -/
inductive PipelineEntry where
  | prompt (text : String)
  | plan (plan : Plan)
  | draft (draft : Draft) (correction : Option String)
  | reviewedDraft (draft : Draft)

/-- A pipeline: the compiler, and the collaborators that are there. -/
structure Pipeline where
  compiler : Compiler
  generator : Option PlanGenerator
  reviewer : Option DraftReviewer

namespace PipelineEntry

/-- The name of an entry. -/
def name : PipelineEntry → String
  | .prompt _ => "from_prompt"
  | .plan _ => "from_logical_ir"
  | .draft _ _ => "from_technical_workflow"
  | .reviewedDraft _ => "from_reviewed_workflow"

/-- The input of the session of a run. -/
def sessionInput : PipelineEntry → SessionInput
  | .prompt text => .prompt text
  | .plan p => .plan p.encode.canonical
  | .draft d _ | .reviewedDraft d => .draft d.encode.canonical

end PipelineEntry

namespace Pipeline

/-- The stage in which a plan is made from a prompt. -/
def generationStage : String := "plan_generation"

/-- The stage in which a draft is reviewed. -/
def reviewStage : String := "technical_review"

/-- The stage in which a draft becomes a plan. -/
def normalizationStage : String := "ir_normalization"

/-- The stage in which a plan is compiled. -/
def compilationStage : String := "dsl_compilation"

/-- The provider that a run uses, if it asks a collaborator. -/
def providerOf (pipeline : Pipeline) : PipelineEntry → Option Provider
  | .prompt _ => pipeline.generator.map PlanGenerator.provider
  | .draft _ _ => pipeline.reviewer.map DraftReviewer.provider
  | .plan _ | .reviewedDraft _ => none

/-- Turns a draft into a plan. -/
def normalize (d : Draft) : Trail Plan :=
  .stage normalizationStage d.encode Plan.encode (d.toPlan.mapError .draft)

/-- Compiles a plan. -/
def compile (pipeline : Pipeline) (p : Plan) : Trail Outcome :=
  .stage compilationStage p.encode Outcome.encode (.ok (pipeline.compiler.compile p))

/-- The plan that an entry leads to. -/
def planOf (pipeline : Pipeline) (entry : PipelineEntry) : Trail Plan :=
  match entry with
  | .prompt text => do
    let generator ← .require entry.name "plan generator" pipeline.generator
    .stage generationStage (.object [("prompt", .string text)]) Plan.encode
      (generator.generate text)
  | .plan p => pure p
  | .draft d correction => do
    let reviewer ← .require entry.name "workflow reviewer" pipeline.reviewer
    let reviewed ← .stage reviewStage
      (.object [("workflow", d.encode), ("correction", .ofOption .string correction)])
      Draft.encode (reviewer.review d correction)
    normalize reviewed
  | .reviewedDraft d => normalize d

/-- The stages of a run. -/
def execute (pipeline : Pipeline) (entry : PipelineEntry) : Trail Outcome := do
  let p ← pipeline.planOf entry
  pipeline.compile p

/-- The event that closes the session of a run. -/
def closing : Except PipelineFault Outcome → SessionEvent
  | .ok (.success w) => .complete (Outcome.success w).encode.canonical
  | .ok (.failure errors _) => .fail ("; ".intercalate (errors.map PlanError.message))
  | .error fault => .fail fault.message

/-- The events of a run. -/
def events (pipeline : Pipeline) (entry : PipelineEntry) : List SessionEvent :=
  [.start entry.sessionInput (pipeline.providerOf entry)] ++ (pipeline.execute entry).events ++
    [closing (pipeline.execute entry).result]

/-- Runs the pipeline: the result, and a recorder with the events of the run in its queue. -/
def run (pipeline : Pipeline) (session : Uuid) (entry : PipelineEntry) :
    Except PipelineFault Outcome × Recorder :=
  ((pipeline.execute entry).result,
    (Recorder.spawn session true).sendAll (pipeline.events entry))

end Pipeline
end PlanFlow
