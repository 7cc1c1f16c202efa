import PlanFlow.Plan.Basic

/-!
# Steps

A step is one unit of work of a compiled workflow.  It names the steps that have to be finished
before it, and says by the kind of its work what there is to do.  Texts in a step may hold
placeholders, such as the reference to the data of another step, which are resolved when the
workflow runs.
-/

namespace PlanFlow

/-- What a transforming step does to the rows. -/
inductive RowOperation where
  | filter
  | map
  | sort
  | deduplicate
  | aggregate
  | flatten
  | selectFields
  | limit
  | partition
  | groupBy
  | merge
  /-- Takes the identifying key of every reference row. -/
  | extractKeys
  /-- Drops the rows whose key is among the reference keys. -/
  | excludeKnown
  | render
  deriving DecidableEq, Inhabited

namespace RowOperation

/-- The name of an operation in documents. -/
def name : RowOperation → String
  | .filter => "filter"
  | .map => "map"
  | .sort => "sort"
  | .deduplicate => "deduplicate"
  | .aggregate => "aggregate"
  | .flatten => "flatten"
  | .selectFields => "select_fields"
  | .limit => "limit"
  | .partition => "partition"
  | .groupBy => "group_by"
  | .merge => "merge"
  | .extractKeys => "extract_keys"
  | .excludeKnown => "exclude_known"
  | .render => "render"

/-- The name of an operation in the text of a step. -/
def title : RowOperation → String
  | .filter => "Filter"
  | .map => "Map"
  | .sort => "Sort"
  | .deduplicate => "Deduplicate"
  | .aggregate => "Aggregate"
  | .flatten => "Flatten"
  | .selectFields => "SelectFields"
  | .limit => "Limit"
  | .partition => "Partition"
  | .groupBy => "GroupBy"
  | .merge => "Merge"
  | .extractKeys => "ExtractKeys"
  | .excludeKnown => "ExcludeKnown"
  | .render => "Render"

/-- All operations, in the order in which messages list them. -/
def all : List RowOperation :=
  [.filter, .map, .sort, .deduplicate, .aggregate, .flatten, .selectFields, .limit, .partition,
    .groupBy, .merge, .extractKeys, .excludeKnown, .render]

/-- The operation of a reshaping. -/
def ofReshaping : Reshaping → RowOperation
  | .map => .map
  | .sort => .sort
  | .deduplicate => .deduplicate
  | .aggregate => .aggregate
  | .flatten => .flatten
  | .selectFields => .selectFields
  | .limit => .limit

end RowOperation

/-- The work of a step. -/
inductive Work where
  /-- Calls an operation of a plugin. -/
  | action (plugin operation : String) (params : Entries Value)
  /-- Has an AI model process its input. -/
  | ai (instruction input : String) (outputSchema : Option Value) (labels : List String)
  /-- Transforms rows. -/
  | transform (operation : RowOperation) (input : String) (config : Entries Value)
  /-- Runs the steps of one of two lists. -/
  | conditional (condition : Condition) (thenSteps elseSteps : List String)
  /-- Runs the steps of its body once for every item. -/
  | loop (iterateOver itemName : String) (body : List String)
      (maxIterations maxConcurrency : Option Nat)
  deriving Inhabited

/-- Whether running a step gives the same result every time. -/
inductive ExecutionClass where
  | deterministic
  | aiDriven
  deriving DecidableEq, Inhabited

namespace ExecutionClass

/-- The name of a class in documents. -/
def name : ExecutionClass → String
  | .deterministic => "deterministic"
  | .aiDriven => "ai_driven"

/-- Both classes, in the order in which messages list them. -/
def all : List ExecutionClass := [.deterministic, .aiDriven]

end ExecutionClass

namespace Work

/-- The name of the kind of work. -/
def kind : Work → String
  | .action .. => "action"
  | .ai .. => "ai_processing"
  | .transform .. => "transform"
  | .conditional .. => "conditional"
  | .loop .. => "loop"

/-- Only AI work may give different results. -/
def executionClass : Work → ExecutionClass
  | .ai .. => .aiDriven
  | .action .. | .transform .. | .conditional .. | .loop .. => .deterministic

/-- The texts in which placeholders are looked for, in the order in which they are written. -/
def texts : Work → List String
  | .action _ _ params => Value.entryTexts params
  | .ai instruction input _ _ => [instruction, input]
  | .transform _ input config => input :: Value.entryTexts config
  | .conditional condition _ _ =>
    condition.field :: ((condition.value.map Value.texts).getD [])
  | .loop iterateOver _ _ _ _ => [iterateOver]

end Work

/-- A step. -/
structure Step where
  id : String
  name : String
  dependencies : List String
  work : Work
  deriving Inhabited

namespace Step

/-- The plugin and the operation that an action calls. -/
def call? (s : Step) : Option (String × String) :=
  match s.work with
  | .action plugin operation _ => some (plugin, operation)
  | _ => none

/-- The class of the step's work. -/
def executionClass (s : Step) : ExecutionClass := s.work.executionClass

/-- The texts of the step in which placeholders are looked for. -/
def texts (s : Step) : List String := s.work.texts

/-- The step on a line of an execution plan. -/
def label (s : Step) : String :=
  s.id ++ " [" ++
    (match s.work with
      | .action plugin operation _ => "action " ++ plugin ++ "." ++ operation
      | .transform operation _ _ => "transform " ++ operation.title
      | work => work.kind) ++ "]"

end Step
end PlanFlow
