import PlanFlow.Graph.Cycles
import PlanFlow.Graph.Order
import PlanFlow.Settings
import PlanFlow.Step.Json

/-!
# Schedules

A schedule is what a runtime needs to run a list of steps: an order, the depth of every step, the
steps that may run at the same time, and the longest chain.  Only a list without structural errors
and cycles has one; `Validation.ofSteps` finds out which it is.
-/

namespace PlanFlow

/-- The longest chain of steps. -/
structure CriticalPath where
  steps : List String
  length : Nat
  deriving DecidableEq, Inhabited

/-- Steps of one depth, which do not depend on each other. -/
structure Batch where
  depth : Nat
  steps : List String
  deriving DecidableEq, Inhabited

/-- What a runtime needs to run a list of steps. -/
structure Schedule where
  order : List String
  criticalPath : CriticalPath
  maxDepth : Nat
  batches : List Batch
  depths : Entries Nat
  deriving DecidableEq, Inhabited

/-- The result of validating a list of steps. -/
inductive Validation where
  | valid (schedule : Schedule) (warnings : List Warning)
  | invalid (errors : List GraphError)
  deriving DecidableEq, Inhabited

namespace StepGraph

/-- The ids of the steps of a depth, in an order. -/
def atDepth (g : StepGraph) (c : Chains) (order : List Nat) (depth : Nat) : List String :=
  (order.filter fun i => c.depthAt i == depth).map g.idAt

/-- The batches of more than one step, by ascending depth. -/
def batches (g : StepGraph) (c : Chains) (order : List Nat) (maxDepth : Nat) : List Batch :=
  (List.range (maxDepth + 1)).filterMap fun depth =>
    let steps := g.atDepth c order depth
    if 1 < steps.length then some ⟨depth, steps⟩ else none

/-- The largest depth of a node. -/
def maxDepth (g : StepGraph) (c : Chains) : Nat :=
  (g.positions.map c.depthAt).foldl max 0

/-- The schedule of a graph by an order of its nodes. -/
def schedule (g : StepGraph) (order : List Nat) : Schedule :=
  let c := Chains.ofOrder g order
  let path := (c.critical order).map g.idAt
  { order := order.map g.idAt
    criticalPath := ⟨path, path.length⟩
    maxDepth := g.maxDepth c
    batches := g.batches c order (g.maxDepth c)
    depths := Entries.ofList (g.positions.map fun i => (g.idAt i, c.depthAt i)) }

/-- The warnings about a graph with a schedule. -/
def warnings (g : StepGraph) (settings : Settings) (s : Schedule) : List Warning :=
  (g.nodes.filterMap fun n =>
    if 1 < n.dependencies.length then some (.mergePoint n.id n.dependencies.length) else none) ++
    (if settings.maxDepthWarning < s.maxDepth then
      [.excessiveDepth s.maxDepth settings.maxDepthWarning] else []) ++
    (if settings.criticalPathWarning < s.criticalPath.length then
      [.longCriticalPath s.criticalPath.length settings.criticalPathWarning] else [])

end StepGraph

namespace Validation

/-- Validates a list of steps. -/
def ofSteps (settings : Settings) (steps : List Step) : Validation :=
  let g := StepGraph.ofSteps steps
  let errors := StepGraph.structuralErrors steps ++ g.cycles.map .cycle
  if errors.isEmpty then
    let order := g.order
    if order.length < g.size then .invalid [.incomplete]
    else
      let schedule := g.schedule order
      .valid schedule (g.warnings settings schedule)
  else .invalid errors

/-- Whether the list of steps has a schedule. -/
def isValid : Validation → Bool
  | .valid _ _ => true
  | .invalid _ => false

/-- The schedule of a valid list of steps. -/
def schedule? : Validation → Option Schedule
  | .valid s _ => some s
  | .invalid _ => none

/-- The errors of an invalid list of steps. -/
def errors : Validation → List GraphError
  | .valid _ _ => []
  | .invalid errors => errors

/-- The warnings about a valid list of steps. -/
def warnings : Validation → List Warning
  | .valid _ warnings => warnings
  | .invalid _ => []

end Validation

/-- The ids of a list of steps in an order in which every step follows its dependencies. -/
def sortSteps (steps : List Step) : Except (List GraphError) (List String) :=
  match Validation.ofSteps default steps with
  | .valid s _ => .ok s.order
  | .invalid errors => .error errors

namespace CriticalPath

/-- The fields of a critical path. -/
def record : Record CriticalPath :=
  CriticalPath.mk <$> .required "steps" (.list .text) <*> .required "length" .usize

/-- Reads a critical path. -/
def decode : Decoder CriticalPath := record.decode "struct CriticalPath"

/-- Writes a critical path. -/
def encode (c : CriticalPath) : Value :=
  .object [("steps", .strings c.steps), ("length", .nat c.length)]

end CriticalPath

namespace Batch

/-- The fields of a batch. -/
def record : Record Batch :=
  Batch.mk <$> .required "depth" .usize <*> .required "step_ids" (.list .text)

/-- Reads a batch. -/
def decode : Decoder Batch := record.decode "struct ParallelBatch"

/-- Writes a batch. -/
def encode (b : Batch) : Value := .object [("depth", .nat b.depth), ("step_ids", .strings b.steps)]

end Batch

namespace Schedule

/-- The fields of a schedule. -/
def record : Record Schedule :=
  Schedule.mk <$> .required "topological_order" (.list .text)
    <*> .required "critical_path" CriticalPath.decode <*> .required "max_depth" .usize
    <*> .required "parallel_batches" (.list Batch.decode)
    <*> .required "depths" (.map .usize)

/-- Reads a schedule. -/
def decode : Decoder Schedule := record.decode "struct DagAnalysis"

/-- Writes a schedule. -/
def encode (s : Schedule) : Value :=
  .object [("topological_order", .strings s.order), ("critical_path", s.criticalPath.encode),
    ("max_depth", .nat s.maxDepth), ("parallel_batches", .array (s.batches.map Batch.encode)),
    ("depths", .object (s.depths.mapValues .nat))]

end Schedule
end PlanFlow
