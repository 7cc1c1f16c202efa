import PlanFlow.Catalog
import PlanFlow.Plan.Check
import PlanFlow.Plan.Draft
import PlanFlow.Plan.Filters
import PlanFlow.Rule.Book
import PlanFlow.Workflow.Basic

/-!
# Compiling plans

A plan is checked, a rule is chosen, the rule emits the steps, and the steps are checked against the
catalog and validated as a graph.  Each stage reports all that it finds; the last two report
together.
-/

namespace PlanFlow

/-- A compiler: what may be called, the settings, and the rules. -/
structure Compiler where
  catalog : Capabilities
  settings : Settings
  rules : RuleBook

namespace Compiler

/-- The compiler with default settings and the built-in rules. -/
def standard (catalog : Capabilities) : Compiler := ⟨catalog, default, .standard⟩

/-- The names of the rules, in the order in which they are tried. -/
def ruleNames (c : Compiler) : List String := c.rules.ordered.map Rule.name

/-- What is wrong with the call of an action, if the catalog does not have it. -/
def callErrors (catalog : Capabilities) (s : Step) : List PlanError :=
  match s.work with
  | .action plugin operation _ =>
    if catalog.hasPlugin plugin then
      if catalog.hasOperation plugin operation then []
      else [.unknownOperation s.id plugin operation]
    else [.unknownPlugin s.id plugin]
  | _ => []

/-- The required parameters that the call of an action lacks.  Nothing is asked of the action of a
plugin that the catalog does not have. -/
def callWarnings (catalog : Capabilities) (s : Step) : List Warning :=
  match s.work with
  | .action plugin operation params =>
    if catalog.hasPlugin plugin then
      match catalog.schema? plugin operation with
      | some schema =>
        (schema.required.filter fun name => !Entries.contains name params).map
          (.missingParameter s.id plugin operation)
      | none => []
    else []
  | _ => []

/-- The outcome for the steps that a rule emitted. -/
def finish (c : Compiler) (p : Plan) (rule : Rule) (warnings : List Warning)
    (steps : List Step) : Outcome :=
  let errors := steps.flatMap (callErrors c.catalog)
  let warnings := warnings ++ steps.flatMap (callWarnings c.catalog)
  match Validation.ofSteps c.settings steps with
  | .invalid graphErrors => .failure (errors ++ graphErrors.map .graph) warnings
  | .valid schedule graphWarnings =>
    let warnings := warnings ++ graphWarnings
    if errors.isEmpty then
      .success {
        steps := steps
        profile := .ofPlan p steps rule.workflowType
        metadata := .describe steps rule.name rule.workflowType p.version
        schedule := schedule
        warnings := warnings.map .ofWarning }
    else .failure errors warnings

/-- Compiles a plan. -/
def compile (c : Compiler) (p : Plan) : Outcome :=
  let warnings := Filter.warnings p.filters
  let errors := p.errors c.settings
  if errors.isEmpty then
    match c.rules.select p with
    | .error e => .failure [e] warnings
    | .ok rule =>
      match rule.steps p c.settings with
      | .error e => .failure [e] warnings
      | .ok steps => c.finish p rule warnings steps
  else .failure errors warnings

/-- Reads a plan from a text. -/
def readPlan (text : String) : Except PlanError Plan :=
  (Plan.decode.ofText text).mapError fun f => .invalidPlan f.message

/-- Reads a plan from a text and compiles it. -/
def compileText (c : Compiler) (text : String) : Outcome :=
  match readPlan text with
  | .ok p => c.compile p
  | .error e => .failure [e] []

/-- Turns a draft into a plan and compiles it. -/
def compileDraft (c : Compiler) (d : Draft) : Outcome :=
  match d.toPlan with
  | .ok p => c.compile p
  | .error f => .failure [.invalidPlan f.message] []

end Compiler
end PlanFlow
