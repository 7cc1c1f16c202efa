import PlanFlow.Emission.Ingestion
import PlanFlow.Emission.Delivering

/-!
# Rules

A rule turns plans of one shape into steps.  Rules are tried by ascending priority, and by name
where priorities are equal; the first that accepts a plan emits its whole workflow.
-/

namespace PlanFlow

/-- A rule: which plans it accepts, and how it emits their steps. -/
structure Rule where
  name : String
  priority : Nat
  /-- The category of the workflows that the rule makes. -/
  workflowType : String
  accepts : Plan → Bool
  emit : Plan → Settings → Emitter Unit

namespace Rule

/-- All steps that a rule emits for a plan, or the error with which it gives up. -/
def steps (r : Rule) (p : Plan) (settings : Settings) : Except PlanError (List Step) := do
  let (_, e) ← (do r.emit p settings; Emitter.finish p : Emitter Unit).run .start
  .ok e.steps

/-- Whether a rule is tried before another, or is its equal in the order. -/
def before (a b : Rule) : Bool :=
  decide (a.priority < b.priority) || (a.priority == b.priority && decide (a.name ≤ b.name))

end Rule
end PlanFlow
