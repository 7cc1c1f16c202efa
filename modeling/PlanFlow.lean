import PlanFlow.Cache
import PlanFlow.Catalog
import PlanFlow.CommandLine.Arguments
import PlanFlow.CommandLine.Report
import PlanFlow.Compiler
import PlanFlow.Diagnosis.Basic
import PlanFlow.Diagnosis.Diagnostic
import PlanFlow.Emission.Basic
import PlanFlow.Emission.Deduplication
import PlanFlow.Emission.Delivering
import PlanFlow.Emission.Handle
import PlanFlow.Emission.Ingestion
import PlanFlow.Emission.Part
import PlanFlow.Files.Document
import PlanFlow.Files.Folder
import PlanFlow.Graph.Basic
import PlanFlow.Graph.Cycles
import PlanFlow.Graph.Order
import PlanFlow.Graph.PlanText
import PlanFlow.Graph.Schedule
import PlanFlow.Ids
import PlanFlow.Json.Decoder
import PlanFlow.Json.Entries
import PlanFlow.Json.Fault
import PlanFlow.Json.Node
import PlanFlow.Json.Record
import PlanFlow.Json.Token
import PlanFlow.Json.Value
import PlanFlow.Json.Variant
import PlanFlow.Json.Writer
import PlanFlow.Main
import PlanFlow.Number.Binary64
import PlanFlow.Number.Literal
import PlanFlow.Number.Shortest
import PlanFlow.Pipeline.Basic
import PlanFlow.Pipeline.Trail
import PlanFlow.Plan.Basic
import PlanFlow.Plan.Check
import PlanFlow.Plan.Draft
import PlanFlow.Plan.Filters
import PlanFlow.Plan.Json
import PlanFlow.Rule.Basic
import PlanFlow.Rule.Book
import PlanFlow.Rule.BuiltIn
import PlanFlow.Session.Basic
import PlanFlow.Session.Recorder
import PlanFlow.Session.Store
import PlanFlow.Session.Timestamp
import PlanFlow.Session.Tracker
import PlanFlow.Session.Unreliable
import PlanFlow.Session.Uuid
import PlanFlow.Settings
import PlanFlow.Step.Basic
import PlanFlow.Step.Json
import PlanFlow.Text.Classes
import PlanFlow.Text.Placeholder
import PlanFlow.Text.Ranges
import PlanFlow.Text.Upper
import PlanFlow.Workflow.Basic
import PlanFlow.Workflow.Profile
import PlanFlow.Proofs.Graph.Edges
import PlanFlow.Proofs.Graph.CycleSearch
import PlanFlow.Proofs.Graph.Cycles
import PlanFlow.Proofs.Graph.Order
import PlanFlow.Proofs.Graph.TraversalRuns
import PlanFlow.Proofs.Graph.Validation
import PlanFlow.Proofs.Graph.Building
import PlanFlow.Proofs.Emission.Sites
import PlanFlow.Proofs.Emission.Growth
import PlanFlow.Proofs.Emission.Loops
import PlanFlow.Proofs.Emission.Ingestion
import PlanFlow.Proofs.Emission.Walk
import PlanFlow.Proofs.Rule.Tail
import PlanFlow.Proofs.Rule.References
import PlanFlow.Proofs.Rule.StepIds
import PlanFlow.Proofs.Emission.Bound
import PlanFlow.Proofs.Stages
import PlanFlow.Proofs.Graph.Depth
import PlanFlow.Proofs.Graph.Schedule
import PlanFlow.Proofs.Emission.Chain
import PlanFlow.Proofs.Rule.Deliveries
import PlanFlow.Proofs.Checks
import PlanFlow.Proofs.Followers
import PlanFlow.Proofs.Json.Entries
import PlanFlow.Proofs.Graph.Placement
import PlanFlow.Proofs.Graph.LongestChain
import PlanFlow.Proofs.Emission.Founded
import PlanFlow.Proofs.Rule.Wiring
import PlanFlow.Proofs.Rule.Nesting
import PlanFlow.Proofs.Rule.Sites
import PlanFlow.Proofs.Rule.Placeholders
import PlanFlow.Proofs.Cache.Recency
import PlanFlow.Proofs.Cache.Mirror
import PlanFlow.Proofs.Cache.Origin
import PlanFlow.Proofs.Text.Placeholder
import PlanFlow.Proofs.RuntimeInput
import PlanFlow.Proofs.Session.Store
import PlanFlow.Proofs.Session.Writers
import PlanFlow.Proofs.Session.Recording
import PlanFlow.Proofs.Pipeline.Reports
import PlanFlow.Proofs.Pipeline.Sessions
import PlanFlow.Proofs.Session.History
import PlanFlow.Proofs.Session.Tracking
import PlanFlow.Proofs.Session.Order
import PlanFlow.Proofs.Session.Lifecycle
import PlanFlow.Proofs.Session.Losses
import PlanFlow.Proofs.Pipeline.Losses
import PlanFlow.Proofs.Graph.Batches
import PlanFlow.Proofs.Emission.Bodies
import PlanFlow.Proofs.Rule.Bodies
import PlanFlow.Proofs.Json.Canonical
import PlanFlow.Proofs.Json.Reading
import PlanFlow.Proofs.Json.Decoded
import PlanFlow.Proofs.Plan.Reading
import PlanFlow.Proofs.Json.Flattened
import PlanFlow.Proofs.Step.Reading
import PlanFlow.Proofs.Rule.Reading
import PlanFlow.Proofs.Workflow.Reading
import PlanFlow.Proofs.Emission.InOrder
import PlanFlow.Proofs.Emission.Marking
import PlanFlow.Proofs.Rule.Sequence
import PlanFlow.Proofs.Rule.Turns
import PlanFlow.Proofs.Rule.Routes
import PlanFlow.Proofs.Rule.Groups
import PlanFlow.Proofs.Listing
import PlanFlow.Proofs.Workflow.Inputs
import PlanFlow.Proofs.Text.Order
import PlanFlow.Proofs.Rule.Book
import PlanFlow.Proofs.Emission.Deduplication
import PlanFlow.Proofs.Plan.Version
import PlanFlow.Proofs.Plan.Findings
import PlanFlow.Proofs.Plan.Filters
import PlanFlow.Proofs.Graph.Draining
import PlanFlow.Proofs.Plan.Sorting
import PlanFlow.Proofs.Plan.NumericFilters
import PlanFlow.Proofs.Emission.Rounds
