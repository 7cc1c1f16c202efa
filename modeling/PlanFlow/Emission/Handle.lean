import PlanFlow.Step.Basic

/-!
# Handles on data

A handle says where data that flows between steps is found: the path that a placeholder names, and
the step that produces it.  Input that a runtime supplies is produced by no step.
-/

namespace PlanFlow

/-- A handle on data. -/
structure Handle where
  step : Option String
  path : String
  deriving DecidableEq, Inhabited

namespace Handle

/-- The data that a step produces. -/
def ofStep (step : String) : Handle := ⟨some step, step ++ ".data"⟩

/-- Input that is supplied at run time. -/
def ofInput (name : String) : Handle := ⟨none, "input." ++ name⟩

/-- The current item of a loop; it is there once the loop has started. -/
def ofItem (loop item : String) : Handle := ⟨some loop, item⟩

/-- The placeholder of the data. -/
def reference (h : Handle) : String := "\x7b\x7b" ++ h.path ++ "\x7d\x7d"

/-- The placeholder of a field of the data. -/
def field (h : Handle) (name : String) : String :=
  "\x7b\x7b" ++ h.path ++ "." ++ name ++ "\x7d\x7d"

/-- The steps that have to be finished before the data is there. -/
def dependencies (h : Handle) : List String := h.step.toList

end Handle
end PlanFlow
