/-!
# What is wrong, or looks wrong

Errors and warnings are values that say what was found.  Each has a stable code, a wording, and the
ids that it is about.
-/

namespace PlanFlow

/-- A defect of a step graph. -/
inductive GraphError where
  | duplicateStep (step : String)
  | missingDependency (step dependency : String)
  | cycle (path : List String)
  /-- The order of the steps does not cover the graph. -/
  | incomplete
  deriving DecidableEq, Inhabited

namespace GraphError

/-- The code of a defect. -/
def code : GraphError → String
  | .duplicateStep _ => "E_DUPLICATE_STEP_ID"
  | .missingDependency _ _ => "E_MISSING_DEPENDENCY"
  | .cycle _ => "E_CYCLE"
  | .incomplete => "E_INTERNAL"

/-- The wording of a defect. -/
def message : GraphError → String
  | .duplicateStep step => "Step id '" ++ step ++ "' is used by more than one step"
  | .missingDependency step dependency =>
    "Step '" ++ step ++ "' depends on '" ++ dependency ++ "', which does not exist"
  | .cycle path => "Circular dependency detected: " ++ " -> ".intercalate path
  | .incomplete => "internal validation error"

/-- The steps that a defect is about, each once. -/
def ids : GraphError → List String
  | .duplicateStep step => [step]
  | .missingDependency step dependency => [step, dependency]
  | .cycle path => path.eraseDups
  | .incomplete => []

end GraphError

/-- A reason why a plan cannot be compiled. -/
inductive PlanError where
  | invalidPlan (detail : String)
  | unsupportedVersion (found : String) (supported : Nat)
  | clarificationsRequired (items : List String)
  | missingSource
  | missingPrimarySource
  | missingDelivery
  | duplicateId (id : String)
  | unknownReference (referrer missing : String)
  | noMatchingRule (shape : String)
  | unknownPlugin (step plugin : String)
  | unknownOperation (step plugin operation : String)
  | graph (error : GraphError)
  deriving DecidableEq, Inhabited

namespace PlanError

/-- The code of an error. -/
def code : PlanError → String
  | .invalidPlan _ => "E_INVALID_IR"
  | .unsupportedVersion _ _ => "E_UNSUPPORTED_VERSION"
  | .clarificationsRequired _ => "E_CLARIFICATIONS_REQUIRED"
  | .missingSource => "E_MISSING_DATA_SOURCE"
  | .missingPrimarySource => "E_MISSING_PRIMARY_SOURCE"
  | .missingDelivery => "E_MISSING_DELIVERY"
  | .duplicateId _ => "E_DUPLICATE_IR_ID"
  | .unknownReference _ _ => "E_UNKNOWN_REFERENCE"
  | .noMatchingRule _ => "E_NO_MATCHING_RULE"
  | .unknownPlugin _ _ => "E_UNKNOWN_PLUGIN"
  | .unknownOperation _ _ _ => "E_UNKNOWN_OPERATION"
  | .graph e => e.code

/-- The wording of an error. -/
def message : PlanError → String
  | .invalidPlan detail => "Failed to parse Logical IR document: " ++ detail
  | .unsupportedVersion found supported =>
    "IR version '" ++ found ++ "' is not supported (expected major version " ++
      toString supported ++ ")"
  | .clarificationsRequired items =>
    "IR is not compile-ready, " ++ toString items.length ++ " clarification(s) outstanding: " ++
      "; ".intercalate items
  | .missingSource => "IR declares no data source; at least one primary data source is required"
  | .missingPrimarySource =>
    "IR declares only lookup data sources; a primary data source is required"
  | .missingDelivery => "IR declares no delivery; at least one delivery sink is required"
  | .duplicateId id => "IR id '" ++ id ++ "' is declared more than once"
  | .unknownReference referrer missing =>
    "'" ++ referrer ++ "' references '" ++ missing ++ "', which is not defined in the IR"
  | .noMatchingRule shape => "No compilation rule matches the IR shape: " ++ shape
  | .unknownPlugin step plugin =>
    "Step '" ++ step ++ "' references plugin '" ++ plugin ++
      "', which is not in the capability catalog"
  | .unknownOperation step plugin operation =>
    "Step '" ++ step ++ "' references operation '" ++ operation ++ "' of plugin '" ++ plugin ++
      "', which is not in the capability catalog"
  | .graph e => e.message

/-- The ids that an error is about. -/
def ids : PlanError → List String
  | .duplicateId id => [id]
  | .unknownReference referrer missing => [referrer, missing]
  | .unknownPlugin step _ | .unknownOperation step _ _ => [step]
  | .graph e => e.ids
  | .invalidPlan _ | .unsupportedVersion _ _ | .clarificationsRequired _ | .missingSource
  | .missingPrimarySource | .missingDelivery | .noMatchingRule _ => []

end PlanError

/-- Something that does not stop a compilation. -/
inductive Warning where
  /-- A step waits for more than one other. -/
  | mergePoint (step : String) (count : Nat)
  | excessiveDepth (depth threshold : Nat)
  | longCriticalPath (length threshold : Nat)
  /-- No row satisfies all filters on a field. -/
  | filtersContradict (field : String) (filters : List String)
  | missingParameter (step plugin operation parameter : String)
  deriving DecidableEq, Inhabited

namespace Warning

/-- The code of a warning. -/
def code : Warning → String
  | .mergePoint _ _ => "W_MERGE_POINT"
  | .excessiveDepth _ _ => "W_EXCESSIVE_DEPTH"
  | .longCriticalPath _ _ => "W_LONG_CRITICAL_PATH"
  | .filtersContradict _ _ => "W_FILTER_DROPS_ALL_ROWS"
  | .missingParameter _ _ _ _ => "W_MISSING_PARAMETER"

/-- The wording of a warning. -/
def message : Warning → String
  | .mergePoint step count =>
    "Step '" ++ step ++ "' merges " ++ toString count ++
      " upstream branches and waits for all of them"
  | .excessiveDepth depth threshold =>
    "Workflow depth " ++ toString depth ++ " exceeds " ++ toString threshold ++
      "; long chains are hard to debug"
  | .longCriticalPath length threshold =>
    "Critical path of " ++ toString length ++ " steps exceeds " ++ toString threshold ++
      "; consider running independent work in parallel"
  | .filtersContradict field filters =>
    "Filters [" ++ ", ".intercalate filters ++ "] on field '" ++ field ++
      "' contradict each other; almost every row will be dropped"
  | .missingParameter step plugin operation parameter =>
    "Step '" ++ step ++ "' calls " ++ plugin ++ "." ++ operation ++
      " without required parameter '" ++ parameter ++ "'"

/-- The ids that a warning is about. -/
def ids : Warning → List String
  | .mergePoint step _ | .missingParameter step _ _ _ => [step]
  | .filtersContradict _ filters => filters
  | .excessiveDepth _ _ | .longCriticalPath _ _ => []

end Warning
end PlanFlow
