import PlanFlow.Plan.Json
import PlanFlow.Step.Basic

/-!
# Steps as JSON

A step is written as one object: its own fields, the kind of its work as `type`, and the fields of
that work.  Fields that are marked optional in the format are left out when they have nothing to
say.
-/

namespace PlanFlow

namespace RowOperation

/-- Reads an operation. -/
def decode : Decoder RowOperation := .choice (alternatives name all)

end RowOperation

namespace ExecutionClass

/-- Reads a class. -/
def decode : Decoder ExecutionClass := .choice (alternatives name all)

end ExecutionClass

namespace Work

/-- The fields of an action. -/
def actionRecord : Record Work :=
  Work.action <$> .required "plugin" .text <*> .required "operation" .text
    <*> .withDefault "params" [] .object

/-- The fields of AI work. -/
def aiRecord : Record Work :=
  Work.ai <$> .required "instruction" .text <*> .required "input" .text
    <*> .optional "output_schema" Decoder.value <*> .listOf "labels" .text

/-- The fields of transforming work. -/
def transformRecord : Record Work :=
  Work.transform <$> .required "operation" RowOperation.decode <*> .required "input" .text
    <*> .withDefault "config" [] .object

/-- The fields of a conditional. -/
def conditionalRecord : Record Work :=
  Work.conditional <$> .required "condition" Condition.decode <*> .listOf "then_steps" .text
    <*> .listOf "else_steps" .text

/-- The fields of a loop. -/
def loopRecord : Record Work :=
  Work.loop <$> .required "iterate_over" .text <*> .required "item_name" .text
    <*> .listOf "body" .text <*> .optional "max_iterations" .u32
    <*> .optional "max_concurrency" .u32

/-- The kinds of work, each with the reader of its fields. -/
def variants : List (String × Decoder Work) :=
  [("action", actionRecord.decode "struct variant StepKind::Action"),
    ("ai_processing", aiRecord.decode "struct variant StepKind::AiProcessing"),
    ("transform", transformRecord.decode "struct variant StepKind::Transform"),
    ("conditional", conditionalRecord.decode "struct variant StepKind::Conditional"),
    ("loop", loopRecord.decode "struct variant StepKind::Loop")]

/-- An entry that is left out if there is nothing to write. -/
def entry? (key : String) (value : Option Value) : List (String × Value) :=
  match value with
  | some v => [(key, v)]
  | none => []

/-- Writes the fields of the work. -/
def entries : Work → List (String × Value)
  | .action plugin operation params =>
    [("plugin", .string plugin), ("operation", .string operation), ("params", .object params)]
  | .ai instruction input outputSchema labels =>
    [("instruction", .string instruction), ("input", .string input)] ++
      entry? "output_schema" outputSchema ++
      entry? "labels" (if labels.isEmpty then none else some (.strings labels))
  | .transform operation input config =>
    [("operation", .string operation.name), ("input", .string input), ("config", .object config)]
  | .conditional condition thenSteps elseSteps =>
    [("condition", condition.encode), ("then_steps", .strings thenSteps),
      ("else_steps", .strings elseSteps)]
  | .loop iterateOver itemName body maxIterations maxConcurrency =>
    [("iterate_over", .string iterateOver), ("item_name", .string itemName),
      ("body", .strings body)] ++
      entry? "max_iterations" (maxIterations.map .nat) ++
      entry? "max_concurrency" (maxConcurrency.map .nat)

end Work

namespace Step

/-- The fields of a step that do not belong to its work. -/
def record : Record (Work → Step) :=
  Step.mk <$> .required "id" .text <*> .required "name" .text <*> .listOf "dependencies" .text

/-- Reads a step. -/
def decode : Decoder Step :=
  .flattened "struct WorkflowStep" record (Decoder.taggedEntries "type" Work.variants)

/-- Reads a list of steps. -/
def decodeList : Decoder (List Step) := .list decode

/-- Writes a step. -/
def encode (s : Step) : Value :=
  .object ([("id", .string s.id), ("name", .string s.name),
    ("dependencies", .strings s.dependencies), ("type", .string s.work.kind)] ++ s.work.entries)

end Step
end PlanFlow
