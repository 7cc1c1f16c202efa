import PlanFlow.Json.Variant
import PlanFlow.Plan.Basic

/-!
# Plans as JSON

For every part of a plan a decoder and an encoder.  An encoder writes all fields in the order of
their declaration, the missing ones as null.  The names in faults are those of the document format.
-/

namespace PlanFlow

/-- The alternatives of an enumeration, by name. -/
def alternatives {α : Type} (name : α → String) (all : List α) : List (String × α) :=
  all.map fun a => (name a, a)

/-- Something that may be missing as a text or null. -/
def Value.text? (s : Option String) : Value := .ofOption .string s

/-- Something that may be missing as a number or null. -/
def Value.nat? (n : Option Nat) : Value := .ofOption .nat n

/-- Something that may be missing as any value or null. -/
def Value.any? (v : Option Value) : Value := v.getD .null

namespace SourceKind

/-- Reads a kind of source. -/
def decode : Decoder SourceKind := .choice (alternatives name all)

end SourceKind

namespace SourceRole

/-- Reads a role. -/
def decode : Decoder SourceRole := .choice (alternatives name all)

end SourceRole

namespace Comparison

/-- Reads a comparison. -/
def decode : Decoder Comparison := .choice (alternatives name all)

end Comparison

namespace Reshaping

/-- Reads a reshaping. -/
def decode : Decoder Reshaping := .choice (alternatives name all)

end Reshaping

namespace AiKind

/-- Reads a kind of AI task. -/
def decode : Decoder AiKind := .choice (alternatives name all)

end AiKind

namespace RenderingKind

/-- Reads a form of rendering. -/
def decode : Decoder RenderingKind := .choice (alternatives name all)

end RenderingKind

namespace DeliveryMethod

/-- Reads a method. -/
def decode : Decoder DeliveryMethod := .choice (alternatives name all)

end DeliveryMethod

namespace EdgeCondition

/-- Reads a situation. -/
def decode : Decoder EdgeCondition := .choice (alternatives name all)

end EdgeCondition

namespace EdgeAction

/-- Reads an action. -/
def decode : Decoder EdgeAction := .choice (alternatives name all)

end EdgeAction

namespace Source

/-- The fields of a source. -/
def record : Record Source :=
  Source.mk <$> .required "id" .text <*> .required "type" SourceKind.decode
    <*> .required "source" .text <*> .optional "operation" .text <*> .required "location" .text
    <*> .withDefault "role" .primary SourceRole.decode <*> .optional "key_field" .text
    <*> .optional "match_field" .text <*> .withDefault "config" [] .object

/-- Reads a source. -/
def decode : Decoder Source := record.decode "struct DataSource"

/-- Writes a source. -/
def encode (s : Source) : Value :=
  .object [("id", .string s.id), ("type", .string s.kind.name), ("source", .string s.plugin),
    ("operation", .text? s.operation), ("location", .string s.location),
    ("role", .string s.role.name), ("key_field", .text? s.keyField),
    ("match_field", .text? s.matchField), ("config", .object s.config)]

end Source

namespace Filter

/-- The fields of a filter. -/
def record : Record Filter :=
  Filter.mk <$> .required "id" .text <*> .required "field" .text
    <*> .required "operator" Comparison.decode <*> .optional "value" Decoder.value
    <*> .listOf "depends_on" .text

/-- Reads a filter. -/
def decode : Decoder Filter := record.decode "struct Filter"

/-- Writes a filter. -/
def encode (f : Filter) : Value :=
  .object [("id", .string f.id), ("field", .string f.field),
    ("operator", .string f.comparison.name), ("value", .any? f.value),
    ("depends_on", .strings f.dependsOn)]

end Filter

namespace Transform

/-- The fields of a transform. -/
def record : Record Transform :=
  Transform.mk <$> .required "id" .text <*> .required "operation" Reshaping.decode
    <*> .withDefault "config" [] .object <*> .listOf "depends_on" .text

/-- Reads a transform. -/
def decode : Decoder Transform := record.decode "struct Transform"

/-- Writes a transform. -/
def encode (t : Transform) : Value :=
  .object [("id", .string t.id), ("operation", .string t.operation.name),
    ("config", .object t.config), ("depends_on", .strings t.dependsOn)]

end Transform

namespace AiTask

/-- The fields of an AI task. -/
def record : Record AiTask :=
  AiTask.mk <$> .required "id" .text <*> .required "type" AiKind.decode
    <*> .required "instruction" .text <*> .optional "input_field" .text
    <*> .optional "output_schema" Decoder.value <*> .listOf "labels" .text
    <*> .listOf "depends_on" .text

/-- Reads an AI task. -/
def decode : Decoder AiTask := record.decode "struct AiOperation"

/-- Writes an AI task. -/
def encode (a : AiTask) : Value :=
  .object [("id", .string a.id), ("type", .string a.kind.name),
    ("instruction", .string a.instruction), ("input_field", .text? a.inputField),
    ("output_schema", .any? a.outputSchema), ("labels", .strings a.labels),
    ("depends_on", .strings a.dependsOn)]

end AiTask

namespace Condition

/-- The fields of a condition. -/
def record : Record Condition :=
  Condition.mk <$> .required "field" .text <*> .required "operator" Comparison.decode
    <*> .optional "value" Decoder.value

/-- Reads a condition. -/
def decode : Decoder Condition := record.decode "struct Condition"

/-- Writes a condition. -/
def encode (c : Condition) : Value :=
  .object [("field", .string c.field), ("operator", .string c.comparison.name),
    ("value", .any? c.value)]

end Condition

namespace Branch

/-- The fields of a branch. -/
def record : Record Branch :=
  Branch.mk <$> .required "id" .text <*> .required "condition" Condition.decode
    <*> .listOf "then_deliver" .text <*> .listOf "else_deliver" .text

/-- Reads a branch. -/
def decode : Decoder Branch := record.decode "struct Conditional"

/-- Writes a branch. -/
def encode (b : Branch) : Value :=
  .object [("id", .string b.id), ("condition", b.condition.encode),
    ("then_deliver", .strings b.thenDeliver), ("else_deliver", .strings b.elseDeliver)]

end Branch

namespace Loop

/-- The fields of a loop. -/
def record : Record Loop :=
  Loop.mk <$> .required "id" .text <*> .required "iterate_over" .text
    <*> .withDefault "item_name" "item" .text <*> .listOf "body" .text
    <*> .optional "max_iterations" .u32 <*> .optional "max_concurrency" .u32

/-- Reads a loop. -/
def decode : Decoder Loop := record.decode "struct LoopSpec"

/-- Writes a loop. -/
def encode (l : Loop) : Value :=
  .object [("id", .string l.id), ("iterate_over", .string l.iterateOver),
    ("item_name", .string l.itemName), ("body", .strings l.body),
    ("max_iterations", .nat? l.maxIterations), ("max_concurrency", .nat? l.maxConcurrency)]

end Loop

namespace Partition

/-- The fields of a partition. -/
def record : Record Partition :=
  Partition.mk <$> .required "id" .text <*> .required "field" .text <*> .listOf "buckets" .text
    <*> .listOf "depends_on" .text

/-- Reads a partition. -/
def decode : Decoder Partition := record.decode "struct Partition"

/-- Writes a partition. -/
def encode (p : Partition) : Value :=
  .object [("id", .string p.id), ("field", .string p.field), ("buckets", .strings p.buckets),
    ("depends_on", .strings p.dependsOn)]

end Partition

namespace Grouping

/-- The fields of a grouping. -/
def record : Record Grouping :=
  Grouping.mk <$> .optional "group_by" .text <*> .withDefault "emit_per_group" false .bool

/-- Reads a grouping. -/
def decode : Decoder Grouping := record.decode "struct Grouping"

/-- Writes a grouping. -/
def encode (g : Grouping) : Value :=
  .object [("group_by", .text? g.groupBy), ("emit_per_group", .bool g.emitPerGroup)]

end Grouping

namespace Rendering

/-- The fields of a rendering. -/
def record : Record Rendering :=
  Rendering.mk <$> .required "type" RenderingKind.decode <*> .listOf "columns" .text
    <*> .optional "template" .text <*> .optional "empty_message" .text

/-- Reads a rendering. -/
def decode : Decoder Rendering := record.decode "struct Rendering"

/-- Writes a rendering. -/
def encode (r : Rendering) : Value :=
  .object [("type", .string r.kind.name), ("columns", .strings r.columns),
    ("template", .text? r.template), ("empty_message", .text? r.emptyMessage)]

end Rendering

namespace Delivery

/-- The fields of a delivery. -/
def record : Record Delivery :=
  Delivery.mk <$> .optional "id" .text <*> .required "method" DeliveryMethod.decode
    <*> .required "plugin_key" .text <*> .optional "operation" .text
    <*> .optional "recipient" .text <*> .optional "recipient_source" .text
    <*> .withDefault "config" [] .object

/-- Reads a delivery. -/
def decode : Decoder Delivery := record.decode "struct Delivery"

/-- Writes a delivery. -/
def encode (d : Delivery) : Value :=
  .object [("id", .text? d.id), ("method", .string d.method.name),
    ("plugin_key", .string d.plugin), ("operation", .text? d.operation),
    ("recipient", .text? d.recipient), ("recipient_source", .text? d.recipientSource),
    ("config", .object d.config)]

end Delivery

namespace EdgeCase

/-- The fields of an edge case. -/
def record : Record EdgeCase :=
  EdgeCase.mk <$> .required "condition" EdgeCondition.decode
    <*> .required "action" EdgeAction.decode <*> .optional "message" .text
    <*> .optional "recipient" .text

/-- Reads an edge case. -/
def decode : Decoder EdgeCase := record.decode "struct EdgeCase"

/-- Writes an edge case. -/
def encode (e : EdgeCase) : Value :=
  .object [("condition", .string e.condition.name), ("action", .string e.action.name),
    ("message", .text? e.message), ("recipient", .text? e.recipient)]

end EdgeCase

namespace Plan

/-- The fields of a plan. -/
def record : Record Plan :=
  Plan.mk <$> .required "ir_version" .text <*> .required "goal" .text
    <*> .required "data_sources" (.list Source.decode) <*> .listOf "filters" Filter.decode
    <*> .listOf "transforms" Transform.decode <*> .listOf "ai_operations" AiTask.decode
    <*> .listOf "conditionals" Branch.decode <*> .listOf "loops" Loop.decode
    <*> .listOf "partitions" Partition.decode <*> .optional "grouping" Grouping.decode
    <*> .optional "rendering" Rendering.decode <*> .required "delivery" (.list Delivery.decode)
    <*> .listOf "edge_cases" EdgeCase.decode <*> .required "clarifications_required" (.list .text)

/-- Reads a plan. -/
def decode : Decoder Plan := record.decode "struct LogicalIr"

/-- Writes a plan. -/
def encode (p : Plan) : Value :=
  .object [("ir_version", .string p.version), ("goal", .string p.goal),
    ("data_sources", .array (p.sources.map Source.encode)),
    ("filters", .array (p.filters.map Filter.encode)),
    ("transforms", .array (p.transforms.map Transform.encode)),
    ("ai_operations", .array (p.aiTasks.map AiTask.encode)),
    ("conditionals", .array (p.branches.map Branch.encode)),
    ("loops", .array (p.loops.map Loop.encode)),
    ("partitions", .array (p.partitions.map Partition.encode)),
    ("grouping", .ofOption Grouping.encode p.grouping),
    ("rendering", .ofOption Rendering.encode p.rendering),
    ("delivery", .array (p.deliveries.map Delivery.encode)),
    ("edge_cases", .array (p.edgeCases.map EdgeCase.encode)),
    ("clarifications_required", .strings p.clarifications)]

end Plan
end PlanFlow
