import PlanFlow.Emission.Basic

/-!
# Rendering and delivering

Rows are rendered in the form that the plan asks for, if it asks for one, and handed to the sinks.
A sink that takes a message gets its payload as content, the others as rows.  What a delivery
configures itself goes before what is configured here.
-/

namespace PlanFlow
namespace Plan

/-- The entry that says what to do when no rows are left, if the plan says so. -/
def onEmpty (p : Plan) : Entries Value :=
  match p.edgeCase? .noRowsAfterFilter with
  | some e => [("on_empty", .string e.action.name)]
  | none => []

/-- How rows are rendered. -/
def renderConfig (p : Plan) (r : Rendering) : Entries Value :=
  Entries.ofList ([("format", .string r.kind.name)] ++
    (if r.columns.isEmpty then [] else [("columns", .strings r.columns)]) ++
    (r.template.toList.map fun t => ("template", .string t)) ++
    (r.emptyMessage.toList.map fun m => ("empty_message", .string m)) ++
    p.onEmpty)

/-- The step that renders rows. -/
def renderStep (p : Plan) (r : Rendering) (id : String) (input : Handle) : Step :=
  ⟨id, "Render " ++ r.kind.name, input.dependencies,
    .transform .render input.reference (p.renderConfig r)⟩

/-- The id of the step of a delivery. -/
def deliveryStepId (key : String) : String := "deliver_" ++ key

/-- What is handed to the sink of a delivery. -/
def deliveryParams (p : Plan) (d : Delivery) (payload : Handle) (recipient : Option String) :
    Entries Value :=
  let payloadKey := if d.method.takesMessage then "content" else "rows"
  Entries.extend
    (Entries.ofList ((recipient.toList.map fun r => ("recipient", .string r)) ++
      [(payloadKey, .string payload.reference)] ++ p.onEmpty))
    d.config

/-- The step of a delivery, which waits for the payload and for other steps before that. -/
def deliveryStep (p : Plan) (key : String) (d : Delivery) (payload : Handle)
    (others : List String) (recipient : Option String) : Step :=
  ⟨deliveryStepId key, "Deliver via " ++ d.method.name,
    (others ++ payload.dependencies).eraseDups,
    .action d.plugin d.effectiveOperation (p.deliveryParams d payload recipient)⟩

end Plan

namespace Emitter

/-- Renders rows by a step with an id, if the plan asks for it. -/
def render (p : Plan) (id : String) (input : Handle) : Emitter (Option Handle) :=
  match p.activeRendering with
  | none => pure none
  | some r => do
    push (p.renderStep r id input)
    pure (some (.ofStep id))

/-- Delivers a payload, and gives the id of the step. -/
def deliver (p : Plan) (key : String) (d : Delivery) (payload : Handle) (others : List String)
    (recipient : Option String) : Emitter String := do
  push (p.deliveryStep key d payload others recipient)
  pure (Plan.deliveryStepId key)

end Emitter
end PlanFlow
