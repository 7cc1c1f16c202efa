import PlanFlow.Graph.Schedule

/-!
# Execution plans as text

The text shows the steps in their order, indented by depth, then the steps that may run at the same
time, then the longest chain.  Of several steps with one id the last is shown.
-/

namespace PlanFlow
namespace Schedule

/-- A text padded at its left to a width. -/
def padLeft (c : Char) (width : Nat) (s : String) : String :=
  String.ofList (List.replicate (width - s.length) c) ++ s

/-- The step of an id on a line; an id without a step stands for itself. -/
def labelOf (steps : List Step) (id : String) : String :=
  match steps.reverse.find? fun s => s.id == id with
  | some s => s.label
  | none => id

/-- The line of a step, with its position in the order. -/
def stepLine (s : Schedule) (steps : List Step) (index : Nat) (id : String) : String :=
  let depth := (Entries.find? id s.depths).getD 0
  padLeft '0' 4 (toString index) ++ ": " ++ String.ofList (List.replicate (2 * depth) ' ') ++
    labelOf steps id ++ "\n"

/-- The line of a batch. -/
def batchLine (b : Batch) : String :=
  "depth " ++ padLeft ' ' 2 (toString b.depth) ++ ": " ++ " | ".intercalate b.steps ++ "\n"

/-- The execution plan of a workflow with a name. -/
def text (s : Schedule) (name : String) (steps : List Step) : String :=
  "======== EXECUTION PLAN for: " ++ name ++ " ========\n" ++
    "\n--- ORDER ---\n" ++
    String.join (s.order.zipIdx.map fun (id, index) => s.stepLine steps index id) ++
    (if s.batches.isEmpty then ""
      else "\n--- PARALLEL BATCHES ---\n" ++ String.join (s.batches.map batchLine)) ++
    "\n--- CRITICAL PATH (" ++ toString s.criticalPath.length ++ " steps, max depth " ++
    toString s.maxDepth ++ ") ---\n" ++
    " -> ".intercalate s.criticalPath.steps ++ "\n" ++
    "\n================ END OF PLAN ================\n"

end Schedule
end PlanFlow
