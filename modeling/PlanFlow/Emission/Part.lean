import PlanFlow.Emission.Handle

/-!
# Parts that become one step

The filters, partitions, transforms and AI tasks of a plan become one step each.  The id of that
step is known from the part alone, and so is the place where the data of any source, part or loop of
a plan will be found, before any step is emitted.
-/

namespace PlanFlow

/-- A part of a plan that becomes one step. -/
inductive Part where
  | filter (f : Filter)
  | partition (p : Partition)
  | transform (t : Transform)
  | ai (a : AiTask)
  deriving Inhabited

namespace Part

/-- The id of a part. -/
def id : Part → String
  | .filter f => f.id
  | .partition p => p.id
  | .transform t => t.id
  | .ai a => a.id

/-- What a part depends on. -/
def dependsOn : Part → List String
  | .filter f => f.dependsOn
  | .partition p => p.dependsOn
  | .transform t => t.dependsOn
  | .ai a => a.dependsOn

/-- The id of the step of a part. -/
def stepId : Part → String
  | .filter f => "filter_" ++ f.id
  | .partition p => "partition_" ++ p.id
  | .transform t => "transform_" ++ t.id
  | .ai a => "ai_" ++ a.id

/-- The schema of the answer to a classification that names labels but no schema. -/
def labelSchema (a : AiTask) : Option Value :=
  if a.kind = .classify ∧ a.labels ≠ [] then
    some (.object [
      ("properties", .object [("classification",
        .object [("enum", .strings a.labels), ("type", .string "string")])]),
      ("required", .strings ["classification"]),
      ("type", .string "object")])
  else none

/-- The name of the step of a part. -/
def stepName : Part → String
  | .filter f => "Filter rows where " ++ f.field ++ " " ++ f.comparison.title
  | .partition p => "Partition rows by " ++ p.field
  | .transform t => (RowOperation.ofReshaping t.operation).title ++ " rows"
  | .ai a => "AI " ++ a.kind.title

/-- The work of a part on its input. -/
def work (input : Handle) : Part → Work
  | .filter f =>
    .transform .filter input.reference
      ([("field", .string f.field), ("operator", .string f.comparison.name)] ++
        (f.value.toList.map fun v => ("value", v)))
  | .partition p =>
    .transform .partition input.reference
      [("buckets", .strings p.buckets), ("field", .string p.field)]
  | .transform t => .transform (.ofReshaping t.operation) input.reference t.config
  | .ai a =>
    .ai a.instruction
      (match a.inputField with
        | some field => input.field field
        | none => input.reference)
      (a.outputSchema.or (labelSchema a)) a.labels

/-- The step of a part, with its input and its dependencies. -/
def step (part : Part) (input : Handle) (dependencies : List String) : Step :=
  ⟨part.stepId, part.stepName, dependencies, part.work input⟩

end Part

namespace Source

/-- The id of the step that reads a source of rows. -/
def fetchId (s : Source) : String := "fetch_" ++ s.id

/-- The id of the step that reads a lookup source. -/
def readReferenceId (s : Source) : String := "read_reference_" ++ s.id

/-- The id of the step that takes the keys of a lookup source. -/
def extractKeysId (s : Source) : String := "extract_ids_" ++ s.id

/-- The id of the step that drops the rows that a lookup source knows. -/
def excludeKnownId (s : Source) : String := "filter_new_items_" ++ s.id

/-- Where the rows of a source are found. -/
def handle (s : Source) : Handle :=
  if s.isLookup then .ofStep s.readReferenceId
  else if s.readOperation.isSome then .ofStep s.fetchId
  else .ofInput s.id

end Source

namespace Loop

/-- The id of the step of a loop. -/
def stepId (l : Loop) : String := "loop_" ++ l.id

end Loop

namespace Plan

/-- The parts of a plan that become one step each. -/
def parts (p : Plan) : List Part :=
  p.filters.map .filter ++ p.partitions.map .partition ++ p.transforms.map .transform ++
    p.aiTasks.map .ai

/-- The first part with an id. -/
def part? (p : Plan) (id : String) : Option Part := p.parts.find? fun part => part.id == id

/-- Where the data of every source, part and loop will be found, the later ones going before. -/
def locations (p : Plan) : List (String × Handle) :=
  (p.sources.map fun s => (s.id, s.handle)) ++
    (p.parts.map fun part => (part.id, .ofStep part.stepId)) ++
    (p.loops.map fun l => (l.id, .ofStep l.stepId))

/-- Where the data of an id will be found. -/
def location? (p : Plan) (id : String) : Option Handle := Entries.find? id p.locations.reverse

/-- Whether an id stands in the body of a loop. -/
def inBody (p : Plan) (id : String) : Bool := p.loops.any fun l => l.body.contains id

end Plan
end PlanFlow
