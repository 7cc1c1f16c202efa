import PlanFlow.Rule.Basic

/-!
# The built-in rules

Four rules, for plans that deliver once per group, plans that route by a condition on AI results,
plans with AI tasks, and plans without.  All start with ingestion and AI tasks, and end with one
step for each delivery.
-/

namespace PlanFlow
namespace Rule

/-- The id of the step that renders all rows. -/
def renderId : String := "render_output"

/-- The id of the step that groups the rows. -/
def groupId : String := "group_rows"

/-- The id of the step that loops over the groups. -/
def groupLoopId : String := "loop_groups"

/-- The id of the step that renders a group. -/
def groupRenderId : String := "render_group"

/-- The name of the current group. -/
def groupItem : String := "group"

/-- What a delivery hands over: the rendered output if there is one and the sink takes a message,
else the rows. -/
def payloadOf (d : Delivery) (rendered : Option Handle) (rows : Handle) : Handle :=
  if d.method.takesMessage then rendered.getD rows else rows

/-- Ingestion, AI tasks, rendering, and every delivery. -/
def emitLinear (p : Plan) (settings : Settings) : Emitter Unit := do
  let rows ← Emitter.ingest p settings
  let rows ← Emitter.enrich p rows
  let rendered ← Emitter.render p renderId rows
  p.keyedDeliveries.forM fun (key, d) => do
    let _ ← Emitter.deliver p key d (payloadOf d rendered rows) [] d.recipient

/-- Rows are delivered without AI tasks and without routing. -/
def simple : Rule where
  name := "simple_tabular_delivery"
  priority := 40
  workflowType := "linear"
  accepts p := !p.emitsPerGroup && p.aiTasks.isEmpty && p.branches.isEmpty
  emit := emitLinear

/-- AI tasks enrich the rows before they are delivered. -/
def enriched : Rule where
  name := "ai_enriched_delivery"
  priority := 30
  workflowType := "ai_enriched"
  accepts p := !p.emitsPerGroup && !p.aiTasks.isEmpty && p.branches.isEmpty
  emit := emitLinear

/-- Whether a delivery takes place once per group. -/
def perGroup (d : Delivery) : Bool := d.method.takesMessage || d.recipientSource.isSome

/-- Who receives a group. -/
def groupRecipient (d : Delivery) : Option String :=
  match d.recipientSource with
  | some field => some ("\x7b\x7b" ++ groupItem ++ "." ++ field ++ "\x7d\x7d")
  | none => d.recipient

/-- The step that groups rows by a field. -/
def groupStep (field : String) (rows : Handle) : Step :=
  ⟨groupId, "Group rows by " ++ field, rows.dependencies,
    .transform .groupBy rows.reference [("group_by", .string field)]⟩

/-- The ids of the steps that run once per group. -/
def groupBody (p : Plan) : List String :=
  (if p.activeRendering.isSome then [groupRenderId] else []) ++
    (p.keyedDeliveries.filter fun (_, d) => perGroup d).map fun (key, _) =>
      Plan.deliveryStepId key

/-- The step that loops over the groups. -/
def groupLoopStep (p : Plan) : Step :=
  ⟨groupLoopId, "For each group", [groupId],
    .loop (Handle.ofStep groupId).reference groupItem (groupBody p) none none⟩

/-- The rows of the current group. -/
def groupRows : Handle := ⟨some groupLoopId, groupItem ++ ".rows"⟩

/-- Rows are grouped, and a loop renders and delivers each group; sinks of data get all rows once,
after the loop. -/
def grouped : Rule where
  name := "grouped_tabular_delivery"
  priority := 10
  workflowType := "grouped"
  accepts p := p.emitsPerGroup && p.groupBy.isSome && p.branches.isEmpty
  emit p settings := do
    let field ← Emitter.require (.noMatchingRule p.shape) p.groupBy
    let rows ← Emitter.ingest p settings
    let rows ← Emitter.enrich p rows
    Emitter.push (groupStep field rows)
    Emitter.push (groupLoopStep p)
    let rendered ← Emitter.render p groupRenderId groupRows
    (p.keyedDeliveries.filter fun (_, d) => perGroup d).forM fun (key, d) => do
      let _ ← Emitter.deliver p key d (payloadOf d rendered groupRows) [] (groupRecipient d)
    (p.keyedDeliveries.filter fun (_, d) => !perGroup d).forM fun (key, d) => do
      let _ ← Emitter.deliver p key d rows [groupLoopId] d.recipient

/-- The id of the step of a branch. -/
def routeId (b : Branch) : String := "route_" ++ b.id

/-- The step of a branch. -/
def routeStep (b : Branch) (rows : Handle) : Step :=
  ⟨routeId b, "Route on " ++ b.condition.field, rows.dependencies,
    .conditional b.condition (b.thenDeliver.map Plan.deliveryStepId)
      (b.elseDeliver.map Plan.deliveryStepId)⟩

/-- Notes the step of a branch at every delivery that the branch names, as often as it does. -/
def noteRoute (routes : Entries (List String)) (b : Branch) : Entries (List String) :=
  (b.thenDeliver ++ b.elseDeliver).foldl
    (fun routes key => Entries.update key [] (· ++ [routeId b]) routes) routes

/-- The steps of the branches that lead to each delivery. -/
def routes (branches : List Branch) : Entries (List String) := branches.foldl noteRoute []

/-- The distinct steps of the branches that lead to a delivery. -/
def routesTo (p : Plan) (key : String) : List String :=
  ((Entries.find? key (routes p.branches)).getD []).eraseDups

/-- AI results decide which deliveries take place. -/
def routed : Rule where
  name := "ai_classification_routed_delivery"
  priority := 20
  workflowType := "routed"
  accepts p := !p.emitsPerGroup && !p.aiTasks.isEmpty && !p.branches.isEmpty
  emit p settings := do
    let rows ← Emitter.ingest p settings
    let rows ← Emitter.enrich p rows
    let rendered ← Emitter.render p renderId rows
    p.branches.forM fun b => Emitter.push (routeStep b rows)
    p.keyedDeliveries.forM fun (key, d) => do
      let _ ← Emitter.deliver p key d (payloadOf d rendered rows) (routesTo p key) d.recipient

/-- The built-in rules, by ascending priority. -/
def builtIn : List Rule := [grouped, routed, enriched, simple]

/-- The built-in rule of a name. -/
def builtIn? (name : String) : Option Rule := builtIn.find? fun r => r.name == name

end Rule
end PlanFlow
