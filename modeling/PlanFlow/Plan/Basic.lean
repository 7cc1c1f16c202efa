import PlanFlow.Json.Value

/-!
# Plans

A plan describes an automation: rows are read from sources, filtered, partitioned, transformed,
enriched by AI tasks, looped over, grouped, rendered and delivered.  Every part has an id, by which
other parts refer to it; a delivery without one is known by its position.

The types hold what a document can say.  Whether a plan makes sense is not part of them.
-/

namespace PlanFlow

/-- The kind of service that holds the rows of a source. -/
inductive SourceKind where
  | tabular
  | api
  | webhook
  | database
  | file
  | stream
  deriving DecidableEq, Inhabited

/-- What the rows of a source are for.  The rows of a lookup source are records that were processed
before; all others flow through the plan. -/
inductive SourceRole where
  | primary
  | lookup
  | secondary
  deriving DecidableEq, Inhabited

/-- Where rows come from. -/
structure Source where
  id : String
  kind : SourceKind
  plugin : String
  operation : Option String
  location : String
  role : SourceRole
  keyField : Option String
  matchField : Option String
  config : Entries Value
  deriving Inhabited, DecidableEq

/-- How the field of a row is compared. -/
inductive Comparison where
  | equals
  | notEquals
  | contains
  | notContains
  | greaterThan
  | lessThan
  | isOneOf
  | isEmpty
  | isNotEmpty
  deriving DecidableEq, Inhabited

/-- Keeps the rows whose field compares as it should. -/
structure Filter where
  id : String
  field : String
  comparison : Comparison
  value : Option Value
  dependsOn : List String
  deriving Inhabited, DecidableEq

/-- What a transform does to the rows. -/
inductive Reshaping where
  | map
  | sort
  | deduplicate
  | aggregate
  | flatten
  | selectFields
  | limit
  deriving DecidableEq, Inhabited

/-- Reshapes the rows. -/
structure Transform where
  id : String
  operation : Reshaping
  config : Entries Value
  dependsOn : List String
  deriving Inhabited, DecidableEq

/-- What an AI task does with a row. -/
inductive AiKind where
  | classify
  | summarize
  | extract
  | generate
  | sentiment
  deriving DecidableEq, Inhabited

/-- Has an AI model look at every row. -/
structure AiTask where
  id : String
  kind : AiKind
  instruction : String
  inputField : Option String
  outputSchema : Option Value
  labels : List String
  dependsOn : List String
  deriving Inhabited, DecidableEq

/-- A condition on a row. -/
structure Condition where
  field : String
  comparison : Comparison
  value : Option Value
  deriving Inhabited, DecidableEq

/-- Chooses between deliveries by a condition. -/
structure Branch where
  id : String
  condition : Condition
  thenDeliver : List String
  elseDeliver : List String
  deriving Inhabited, DecidableEq

/-- Runs its body, a list of ids, once for every row of the part it iterates over. -/
structure Loop where
  id : String
  iterateOver : String
  itemName : String
  body : List String
  maxIterations : Option Nat
  maxConcurrency : Option Nat
  deriving Inhabited, DecidableEq

/-- Splits the rows by a field. -/
structure Partition where
  id : String
  field : String
  buckets : List String
  dependsOn : List String
  deriving Inhabited, DecidableEq

/-- Groups the rows by a field, possibly to deliver once per group. -/
structure Grouping where
  groupBy : Option String
  emitPerGroup : Bool
  deriving Inhabited, DecidableEq

/-- The form in which rows are rendered. -/
inductive RenderingKind where
  | emailEmbeddedTable
  | table
  | structuredDocument
  | summaryBlock
  | alert
  | none
  deriving DecidableEq, Inhabited

/-- How the rows are rendered before they are delivered. -/
structure Rendering where
  kind : RenderingKind
  columns : List String
  template : Option String
  emptyMessage : Option String
  deriving Inhabited, DecidableEq

/-- The way in which a delivery reaches its sink. -/
inductive DeliveryMethod where
  | email
  | chat
  | webhook
  | database
  | file
  | sms
  deriving DecidableEq, Inhabited

/-- Where results go. -/
structure Delivery where
  id : Option String
  method : DeliveryMethod
  plugin : String
  operation : Option String
  recipient : Option String
  recipientSource : Option String
  config : Entries Value
  deriving Inhabited, DecidableEq

/-- A situation that is not the normal one. -/
inductive EdgeCondition where
  | noRowsAfterFilter
  | emptyDataSource
  | aiExtractionFailed
  | missingRequiredField
  | duplicateRecords
  deriving DecidableEq, Inhabited

/-- What to do in such a situation. -/
inductive EdgeAction where
  | skipDelivery
  | sendEmptyResultMessage
  | notifyAdmin
  | useDefault
  | fail
  deriving DecidableEq, Inhabited

/-- What to do in which situation. -/
structure EdgeCase where
  condition : EdgeCondition
  action : EdgeAction
  message : Option String
  recipient : Option String
  deriving Inhabited, DecidableEq

/-- A plan. -/
structure Plan where
  version : String
  goal : String
  sources : List Source
  filters : List Filter
  transforms : List Transform
  aiTasks : List AiTask
  branches : List Branch
  loops : List Loop
  partitions : List Partition
  grouping : Option Grouping
  rendering : Option Rendering
  deliveries : List Delivery
  edgeCases : List EdgeCase
  clarifications : List String
  deriving Inhabited, DecidableEq

namespace SourceKind

/-- The name of a kind in documents. -/
def name : SourceKind → String
  | .tabular => "tabular"
  | .api => "api"
  | .webhook => "webhook"
  | .database => "database"
  | .file => "file"
  | .stream => "stream"

/-- All kinds, in the order in which messages list them. -/
def all : List SourceKind := [.tabular, .api, .webhook, .database, .file, .stream]

/-- The operation that reads a source of this kind, unless the source names another.  The rows of a
webhook arrive as input and are never fetched. -/
def readOperation : SourceKind → Option String
  | .tabular => some "read_range"
  | .api => some "fetch"
  | .database => some "query"
  | .file => some "read_file"
  | .stream => some "subscribe"
  | .webhook => none

end SourceKind

namespace SourceRole

/-- The name of a role in documents. -/
def name : SourceRole → String
  | .primary => "primary"
  | .lookup => "lookup"
  | .secondary => "secondary"

/-- All roles, in the order in which messages list them. -/
def all : List SourceRole := [.primary, .lookup, .secondary]

end SourceRole

namespace Comparison

/-- The name of a comparison in documents. -/
def name : Comparison → String
  | .equals => "equals"
  | .notEquals => "not_equals"
  | .contains => "contains"
  | .notContains => "not_contains"
  | .greaterThan => "greater_than"
  | .lessThan => "less_than"
  | .isOneOf => "in"
  | .isEmpty => "is_empty"
  | .isNotEmpty => "is_not_empty"

/-- The name of a comparison in the names of steps. -/
def title : Comparison → String
  | .equals => "Equals"
  | .notEquals => "NotEquals"
  | .contains => "Contains"
  | .notContains => "NotContains"
  | .greaterThan => "GreaterThan"
  | .lessThan => "LessThan"
  | .isOneOf => "In"
  | .isEmpty => "IsEmpty"
  | .isNotEmpty => "IsNotEmpty"

/-- All comparisons, in the order in which messages list them. -/
def all : List Comparison :=
  [.equals, .notEquals, .contains, .notContains, .greaterThan, .lessThan, .isOneOf, .isEmpty,
    .isNotEmpty]

end Comparison

namespace Reshaping

/-- The name of a reshaping in documents. -/
def name : Reshaping → String
  | .map => "map"
  | .sort => "sort"
  | .deduplicate => "deduplicate"
  | .aggregate => "aggregate"
  | .flatten => "flatten"
  | .selectFields => "select_fields"
  | .limit => "limit"

/-- All reshapings, in the order in which messages list them. -/
def all : List Reshaping := [.map, .sort, .deduplicate, .aggregate, .flatten, .selectFields, .limit]

end Reshaping

namespace AiKind

/-- The name of a kind of AI task in documents. -/
def name : AiKind → String
  | .classify => "classify"
  | .summarize => "summarize"
  | .extract => "extract"
  | .generate => "generate"
  | .sentiment => "sentiment"

/-- The name of a kind of AI task in the names of steps. -/
def title : AiKind → String
  | .classify => "Classify"
  | .summarize => "Summarize"
  | .extract => "Extract"
  | .generate => "Generate"
  | .sentiment => "Sentiment"

/-- All kinds of AI tasks, in the order in which messages list them. -/
def all : List AiKind := [.classify, .summarize, .extract, .generate, .sentiment]

end AiKind

namespace RenderingKind

/-- The name of a form of rendering, in documents and elsewhere. -/
def name : RenderingKind → String
  | .emailEmbeddedTable => "email_embedded_table"
  | .table => "table"
  | .structuredDocument => "structured_document"
  | .summaryBlock => "summary_block"
  | .alert => "alert"
  | .none => "none"

/-- All forms of rendering, in the order in which messages list them. -/
def all : List RenderingKind :=
  [.emailEmbeddedTable, .table, .structuredDocument, .summaryBlock, .alert, .none]

end RenderingKind

namespace DeliveryMethod

/-- The name of a method, in documents and elsewhere. -/
def name : DeliveryMethod → String
  | .email => "email"
  | .chat => "chat"
  | .webhook => "webhook"
  | .database => "database"
  | .file => "file"
  | .sms => "sms"

/-- All methods, in the order in which messages list them. -/
def all : List DeliveryMethod := [.email, .chat, .webhook, .database, .file, .sms]

/-- The operation that delivers by this method, unless the delivery names another. -/
def operation : DeliveryMethod → String
  | .email => "send_email"
  | .chat => "send_message"
  | .webhook => "post"
  | .database => "insert_rows"
  | .file => "write_file"
  | .sms => "send_sms"

/-- Whether the sink takes a message, and so the rendered output; other sinks take rows. -/
def takesMessage : DeliveryMethod → Bool
  | .email | .chat | .sms | .webhook => true
  | .database | .file => false

end DeliveryMethod

namespace EdgeCondition

/-- The name of a situation in documents. -/
def name : EdgeCondition → String
  | .noRowsAfterFilter => "no_rows_after_filter"
  | .emptyDataSource => "empty_data_source"
  | .aiExtractionFailed => "ai_extraction_failed"
  | .missingRequiredField => "missing_required_field"
  | .duplicateRecords => "duplicate_records"

/-- All situations, in the order in which messages list them. -/
def all : List EdgeCondition :=
  [.noRowsAfterFilter, .emptyDataSource, .aiExtractionFailed, .missingRequiredField,
    .duplicateRecords]

end EdgeCondition

namespace EdgeAction

/-- The name of an action in documents. -/
def name : EdgeAction → String
  | .skipDelivery => "skip_delivery"
  | .sendEmptyResultMessage => "send_empty_result_message"
  | .notifyAdmin => "notify_admin"
  | .useDefault => "use_default"
  | .fail => "fail"

/-- All actions, in the order in which messages list them. -/
def all : List EdgeAction :=
  [.skipDelivery, .sendEmptyResultMessage, .notifyAdmin, .useDefault, .fail]

end EdgeAction

namespace Source

/-- The operation that reads the source, if it is read at all. -/
def readOperation (s : Source) : Option String := s.operation.or s.kind.readOperation

/-- Whether the source holds records that were processed before. -/
def isLookup (s : Source) : Bool := s.role == .lookup

end Source

namespace Delivery

/-- The id of the delivery at a position, counted from zero. -/
def key (d : Delivery) (index : Nat) : String :=
  d.id.getD ("delivery_" ++ toString (index + 1))

/-- The operation that delivers. -/
def effectiveOperation (d : Delivery) : String := d.operation.getD d.method.operation

end Delivery

namespace Plan

/-- Whether results are delivered once per group. -/
def emitsPerGroup (p : Plan) : Bool := p.grouping.any Grouping.emitPerGroup

/-- The field by which rows are grouped. -/
def groupBy (p : Plan) : Option String := p.grouping.bind Grouping.groupBy

/-- The sources of records that were processed before. -/
def lookups (p : Plan) : List Source := p.sources.filter Source.isLookup

/-- The sources whose rows flow through the plan. -/
def candidates (p : Plan) : List Source := p.sources.filter fun s => !s.isLookup

/-- What to do in a situation, by the first edge case that is about it. -/
def edgeCase? (p : Plan) (condition : EdgeCondition) : Option EdgeCase :=
  p.edgeCases.find? fun e => e.condition == condition

/-- The deliveries with their ids. -/
def keyedDeliveries (p : Plan) : List (String × Delivery) :=
  p.deliveries.zipIdx.map fun (d, index) => (d.key index, d)

/-- The rendering, unless there is none or its form is `none`. -/
def activeRendering (p : Plan) : Option Rendering :=
  p.rendering.filter fun r => r.kind != .none

/-- One line about the properties by which a rule is chosen. -/
def shape (p : Plan) : String :=
  "emit_per_group=" ++ (if p.emitsPerGroup then "true" else "false") ++
    ", group_by=" ++ p.groupBy.getD "none" ++
    ", delivery_methods=[" ++ ", ".intercalate (p.deliveries.map fun d => d.method.name) ++
    "], ai_operations=" ++ toString p.aiTasks.length ++
    ", conditionals=" ++ toString p.branches.length

end Plan
end PlanFlow
