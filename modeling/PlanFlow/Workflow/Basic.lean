import PlanFlow.Diagnosis.Diagnostic
import PlanFlow.Graph.Schedule
import PlanFlow.Workflow.Profile

/-!
# Compiled workflows

A compiled workflow is a list of steps with its profile, facts about the compilation, the schedule
of the steps, and the warnings that came up.  The outcome of a compilation is a workflow, or the
errors that stopped it and the warnings up to there.
-/

namespace PlanFlow

/-- Facts about a compilation. -/
structure Metadata where
  rule : String
  workflowType : String
  stepCount : Nat
  aiStepCount : Nat
  /-- The share of steps without AI in percent, with one decimal. -/
  deterministicShare : Binary64
  /-- The time that the compilation took, in milliseconds; it is not measured here. -/
  time : Binary64
  planVersion : String
  compilerVersion : String
  deriving Inhabited, DecidableEq

namespace Metadata

/-- The version of this compiler. -/
def currentVersion : String := "0.1.0"

/-- The share of the steps without AI in percent, rounded to one decimal.  Every step of the
calculation is rounded to binary64. -/
def share (total ai : Nat) : Binary64 :=
  if total = 0 then .zero false
  else
    let percent := do
      let ratio ← (Binary64.ofNat (total - ai)).div (.ofNat total)
      let raw ← ratio.mul (.ofNat 100)
      let tenths ← raw.mul (.ofNat 10)
      tenths.roundAway.div (.ofNat 10)
    percent.getD (.zero false)

/-- The number of steps with AI. -/
def aiSteps (steps : List Step) : Nat := steps.countP fun s => s.executionClass == .aiDriven

/-- The facts about the compilation of a plan to steps. -/
def describe (steps : List Step) (rule workflowType planVersion : String) : Metadata where
  rule := rule
  workflowType := workflowType
  stepCount := steps.length
  aiStepCount := aiSteps steps
  deterministicShare := share steps.length (aiSteps steps)
  time := .zero false
  planVersion := planVersion
  compilerVersion := currentVersion

/-- The fields of the metadata. -/
def record : Record Metadata :=
  Metadata.mk <$> .required "rule_used" .text <*> .required "workflow_type" .text
    <*> .required "step_count" .usize <*> .required "ai_step_count" .usize
    <*> .required "deterministic_step_percentage" .f64
    <*> .required "compilation_time_ms" .f64 <*> .required "ir_version" .text
    <*> .required "compiler_version" .text

/-- Reads metadata. -/
def decode : Decoder Metadata := record.decode "struct CompilationMetadata"

/-- Writes metadata. -/
def encode (m : Metadata) : Value :=
  .object [("rule_used", .string m.rule), ("workflow_type", .string m.workflowType),
    ("step_count", .nat m.stepCount), ("ai_step_count", .nat m.aiStepCount),
    ("deterministic_step_percentage", .number (.float m.deterministicShare)),
    ("compilation_time_ms", .number (.float m.time)), ("ir_version", .string m.planVersion),
    ("compiler_version", .string m.compilerVersion)]

end Metadata

/-- A compiled workflow. -/
structure Workflow where
  steps : List Step
  profile : Profile
  metadata : Metadata
  schedule : Schedule
  warnings : List Diagnostic
  deriving Inhabited

namespace Workflow

/-- The first step with an id. -/
def step? (w : Workflow) (id : String) : Option Step := w.steps.find? fun s => s.id == id

/-- The ids of the steps. -/
def stepIds (w : Workflow) : List String := w.steps.map Step.id

/-- The written fields of a workflow, in their order. -/
def fields (w : Workflow) : List (String × Value) :=
  [("workflow_steps", .array (w.steps.map Step.encode)), ("dsl_wrapper", w.profile.encode),
    ("metadata", w.metadata.encode), ("execution_plan", w.schedule.encode),
    ("warnings", .array (w.warnings.map Diagnostic.encode))]

/-- The fields of a workflow. -/
def record : Record Workflow :=
  Workflow.mk <$> .required "workflow_steps" (.list Step.decode)
    <*> .required "dsl_wrapper" Profile.decode <*> .required "metadata" Metadata.decode
    <*> .required "execution_plan" Schedule.decode <*> .listOf "warnings" Diagnostic.decode

/-- Reads a workflow. -/
def decode : Decoder Workflow := record.decode "struct CompiledWorkflow"

/-- Writes a workflow. -/
def encode (w : Workflow) : Value := .object w.fields

/-- Whether two workflows are written in the same way, up to the numeric equality of numbers. -/
def same (v w : Workflow) : Bool := v.encode.canonical.same w.encode.canonical

end Workflow

/-- The outcome of a compilation. -/
inductive Outcome where
  | success (workflow : Workflow)
  | failure (errors : List PlanError) (warnings : List Warning)
  deriving Inhabited

namespace Outcome

/-- Whether there is a workflow. -/
def isSuccess : Outcome → Bool
  | .success _ => true
  | .failure _ _ => false

/-- The workflow, if there is one. -/
def workflow? : Outcome → Option Workflow
  | .success w => some w
  | .failure _ _ => none

/-- The errors that stopped the compilation. -/
def errors : Outcome → List PlanError
  | .success _ => []
  | .failure errors _ => errors

/-- Errors as a list of diagnostics. -/
def diagnostics (errors : List PlanError) : Value :=
  .array (errors.map fun e => (Diagnostic.ofError e).encode)

/-- Warnings as a list of diagnostics. -/
def warningDiagnostics (warnings : List Warning) : Value :=
  .array (warnings.map fun w => (Diagnostic.ofWarning w).encode)

/-- Writes an outcome. -/
def encode : Outcome → Value
  | .success w => .object (("success", .bool true) :: w.fields)
  | .failure errors warnings =>
    .object [("success", .bool false), ("errors", diagnostics errors),
      ("warnings", warningDiagnostics warnings)]

end Outcome
end PlanFlow
