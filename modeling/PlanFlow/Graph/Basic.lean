import PlanFlow.Diagnosis.Basic
import PlanFlow.Ids
import PlanFlow.Step.Basic

/-!
# Step graphs

The graph of a list of steps has one node for each step, at the step's position.  A dependency leads
to the first step with its id; an id that no step has leads nowhere.  Edges are kept in both
directions, and a graph is also built from a defective list, so that all defects can be reported.
-/

namespace PlanFlow

/-- A node of a step graph: the id of its step, the positions of the steps that it waits for, each
once and in the order in which the step names them, and of those that wait for it, ascending. -/
structure GraphNode where
  id : String
  dependencies : List Nat
  dependents : List Nat
  deriving Inhabited, DecidableEq

/-- The graph of a list of steps. -/
structure StepGraph where
  nodes : List GraphNode
  deriving Inhabited, DecidableEq

namespace StepGraph

/-- The sum of numbers. -/
def total : List Nat → Nat
  | [] => 0
  | n :: rest => n + total rest

/-- The position of the first step with an id. -/
def position? (steps : List Step) (id : String) : Option Nat :=
  steps.findIdx? fun s => s.id == id

/-- The positions of the steps that a step waits for. -/
def waitsFor (steps : List Step) (s : Step) : List Nat :=
  (s.dependencies.filterMap (position? steps)).eraseDups

/-- The positions of the lists that hold a number. -/
def holding (lists : List (List Nat)) (n : Nat) : List Nat :=
  lists.zipIdx.filterMap fun (list, i) => if list.contains n then some i else none

/-- The graph of a list of steps. -/
def ofSteps (steps : List Step) : StepGraph :=
  let dependencies := steps.map (waitsFor steps)
  ⟨steps.zipIdx.map fun (s, i) => ⟨s.id, waitsFor steps s, holding dependencies i⟩⟩

/-- The dependencies of a step that no step of the list is. -/
def unresolved (steps : List Step) (s : Step) : List String :=
  s.dependencies.filter fun d => (position? steps d).isNone

/-- The ids that are used twice, and the dependencies that lead nowhere. -/
def structuralErrors (steps : List Step) : List GraphError :=
  (Ids.repeated (steps.map Step.id)).map .duplicateStep ++
    steps.flatMap fun s => (unresolved steps s).map (.missingDependency s.id)

/-- The number of nodes. -/
def size (g : StepGraph) : Nat := g.nodes.length

/-- The positions of the nodes. -/
def positions (g : StepGraph) : List Nat := List.range g.size

/-- The id at a position. -/
def idAt (g : StepGraph) (i : Nat) : String := (g.nodes[i]?.map GraphNode.id).getD ""

/-- The positions that the node at a position waits for. -/
def dependenciesAt (g : StepGraph) (i : Nat) : List Nat :=
  (g.nodes[i]?.map GraphNode.dependencies).getD []

/-- The positions that wait for the node at a position. -/
def dependentsAt (g : StepGraph) (i : Nat) : List Nat :=
  (g.nodes[i]?.map GraphNode.dependents).getD []

end StepGraph
end PlanFlow
