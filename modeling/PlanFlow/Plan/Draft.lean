import PlanFlow.Plan.Json

/-!
# Drafts

A draft says the same as a plan, as one ordered list of items of all kinds.  It becomes a plan by
sorting the items by kind, in their order.  A plan has at most one grouping and one rendering, so a
draft with two of either is refused, as is one without a goal.
-/

namespace PlanFlow

/-- An item of a draft. -/
inductive DraftItem where
  | fetch (source : Source)
  | filter (filter : Filter)
  | transform (transform : Transform)
  | ai (task : AiTask)
  | branch (branch : Branch)
  | loop (loop : Loop)
  | partition (partition : Partition)
  | group (grouping : Grouping)
  | render (rendering : Rendering)
  | deliver (delivery : Delivery)
  | edgeCase (edgeCase : EdgeCase)

/-- A draft of a plan. -/
structure Draft where
  goal : String
  version : Option String
  items : List DraftItem
  clarifications : List String

/-- Why a draft is no plan. -/
inductive DraftFault where
  /-- The draft has more than one item of a kind that is unique in a plan. -/
  | repeated (kind : String)
  /-- The draft is wrong in itself. -/
  | invalid (detail : String)
  deriving DecidableEq

namespace DraftFault

/-- The wording of the fault. -/
def message : DraftFault → String
  | .repeated kind => "Technical workflow declares more than one '" ++ kind ++ "' step"
  | .invalid detail => "Invalid technical workflow: " ++ detail

end DraftFault

namespace Draft

/-- The version of a plan whose draft names none. -/
def defaultVersion : String := "1.0"

/-- Puts an item into a plan, after the items of its kind. -/
def addItem (p : Plan) : DraftItem → Except DraftFault Plan
  | .fetch s => .ok { p with sources := p.sources ++ [s] }
  | .filter f => .ok { p with filters := p.filters ++ [f] }
  | .transform t => .ok { p with transforms := p.transforms ++ [t] }
  | .ai a => .ok { p with aiTasks := p.aiTasks ++ [a] }
  | .branch b => .ok { p with branches := p.branches ++ [b] }
  | .loop l => .ok { p with loops := p.loops ++ [l] }
  | .partition q => .ok { p with partitions := p.partitions ++ [q] }
  | .group g =>
    if p.grouping.isSome then .error (.repeated "group") else .ok { p with grouping := some g }
  | .render r =>
    if p.rendering.isSome then .error (.repeated "render") else .ok { p with rendering := some r }
  | .deliver d => .ok { p with deliveries := p.deliveries ++ [d] }
  | .edgeCase e => .ok { p with edgeCases := p.edgeCases ++ [e] }

/-- The plan of a draft before any item is put into it. -/
def outline (d : Draft) : Plan where
  version := d.version.getD defaultVersion
  goal := d.goal
  sources := []
  filters := []
  transforms := []
  aiTasks := []
  branches := []
  loops := []
  partitions := []
  grouping := none
  rendering := none
  deliveries := []
  edgeCases := []
  clarifications := d.clarifications

/-- The plan of a draft. -/
def toPlan (d : Draft) : Except DraftFault Plan :=
  if Text.isBlankText d.goal then .error (.invalid "technical workflow has an empty goal")
  else d.items.foldlM addItem d.outline

end Draft

namespace DraftItem

/-- The kinds of items, each with the reader of its fields. -/
def variants : List (String × Decoder DraftItem) :=
  let reader {α : Type} (decode : Decoder α) (item : α → DraftItem) : Decoder DraftItem :=
    fun mode node => (decode mode node).map item
  [("fetch", reader Source.decode .fetch), ("filter", reader Filter.decode .filter),
    ("transform", reader Transform.decode .transform), ("ai", reader AiTask.decode .ai),
    ("branch", reader Branch.decode .branch), ("loop", reader Loop.decode .loop),
    ("partition", reader Partition.decode .partition), ("group", reader Grouping.decode .group),
    ("render", reader Rendering.decode .render), ("deliver", reader Delivery.decode .deliver),
    ("edge_case", reader EdgeCase.decode .edgeCase)]

/-- Reads an item. -/
def decode : Decoder DraftItem := .tagged "TechnicalStep" "kind" variants

/-- The value of a part of a plan, with the kind of the item in front. -/
def withKind (kind : String) : Value → Value
  | .object entries => .object (("kind", .string kind) :: entries)
  | v => v

/-- Writes an item. -/
def encode : DraftItem → Value
  | .fetch s => withKind "fetch" s.encode
  | .filter f => withKind "filter" f.encode
  | .transform t => withKind "transform" t.encode
  | .ai a => withKind "ai" a.encode
  | .branch b => withKind "branch" b.encode
  | .loop l => withKind "loop" l.encode
  | .partition p => withKind "partition" p.encode
  | .group g => withKind "group" g.encode
  | .render r => withKind "render" r.encode
  | .deliver d => withKind "deliver" d.encode
  | .edgeCase e => withKind "edge_case" e.encode

end DraftItem

namespace Draft

/-- The fields of a draft. -/
def record : Record Draft :=
  Draft.mk <$> .required "goal" .text <*> .optional "ir_version" .text
    <*> .required "technical_steps" (.list DraftItem.decode) <*> .listOf "clarifications" .text

/-- Reads a draft. -/
def decode : Decoder Draft := record.decode "struct TechnicalWorkflow"

/-- Writes a draft. -/
def encode (d : Draft) : Value :=
  .object [("goal", .string d.goal), ("ir_version", .text? d.version),
    ("technical_steps", .array (d.items.map DraftItem.encode)),
    ("clarifications", .strings d.clarifications)]

end Draft
end PlanFlow
