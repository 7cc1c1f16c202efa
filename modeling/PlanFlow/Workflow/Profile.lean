import PlanFlow.Step.Json
import PlanFlow.Text.Placeholder
import PlanFlow.Text.Upper

/-!
# Profiles

A profile tells the reader of a workflow what it is: a name made of the first words of the goal, the
plugins that its steps call, the input that it needs at run time, and what it puts out.
-/

namespace PlanFlow

/-- The facts about a workflow as a whole. -/
structure Profile where
  agentName : String
  description : String
  workflowType : String
  /-- The plugins that are called, in ascending order. -/
  plugins : List String
  /-- The input that placeholders name, in the order in which they stand in the steps. -/
  inputs : List String
  outputs : List String
  edgeCases : List EdgeCase
  deriving Inhabited

namespace Profile

/-- How many words of a goal its name takes. -/
def nameWords : Nat := 6

/-- A word with nothing but its letters and digits, the first of them in upper case. -/
def titleWord (word : List Char) : List Char :=
  match word.filter Text.isAlphanumeric with
  | [] => []
  | c :: rest => Text.upper c ++ rest

/-- The name of a workflow with a goal. -/
def nameOf (goal : String) : String :=
  let words := ((Text.words goal.toList).take nameWords).map titleWord
  match words.filter fun word => !word.isEmpty with
  | [] => "Workflow Agent"
  | words => " ".intercalate (words.map String.ofList)

/-- The plugins that steps call, each once and in ascending order. -/
def pluginsOf (steps : List Step) : List String :=
  ((steps.filterMap fun s => s.call?.map Prod.fst).eraseDups).mergeSort fun a b => decide (a ≤ b)

/-- The input that the placeholders of steps name, each once. -/
def inputsOf (steps : List Step) : List String :=
  (steps.flatMap fun s => s.texts.flatMap Text.inputNames).eraseDups

/-- What a plan puts out. -/
def outputsOf (p : Plan) : List String :=
  (p.rendering.toList.map fun r => r.kind.name) ++
    p.keyedDeliveries.map fun (key, d) => key ++ " via " ++ d.method.name

/-- The profile of the steps of a plan. -/
def ofPlan (p : Plan) (steps : List Step) (workflowType : String) : Profile where
  agentName := nameOf p.goal
  description := p.goal
  workflowType := workflowType
  plugins := pluginsOf steps
  inputs := inputsOf steps
  outputs := outputsOf p
  edgeCases := p.edgeCases

/-- The fields of a profile. -/
def record : Record Profile :=
  Profile.mk <$> .required "agent_name" .text <*> .required "description" .text
    <*> .required "workflow_type" .text <*> .required "suggested_plugins" (.list .text)
    <*> .required "required_inputs" (.list .text)
    <*> .required "suggested_outputs" (.list .text) <*> .listOf "edge_cases" EdgeCase.decode

/-- Reads a profile. -/
def decode : Decoder Profile := record.decode "struct DslWrapper"

/-- Writes a profile. -/
def encode (p : Profile) : Value :=
  .object ([("agent_name", .string p.agentName), ("description", .string p.description),
    ("workflow_type", .string p.workflowType), ("suggested_plugins", .strings p.plugins),
    ("required_inputs", .strings p.inputs), ("suggested_outputs", .strings p.outputs)] ++
    (if p.edgeCases.isEmpty then []
      else [("edge_cases", .array (p.edgeCases.map EdgeCase.encode))]))

end Profile
end PlanFlow
