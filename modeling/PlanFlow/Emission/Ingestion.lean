import PlanFlow.Emission.Deduplication

/-!
# Ingestion

The rows of all sources are read and merged, filtered, checked against the lookup sources, and then
partitioned and transformed.  They are checked before anything reshapes them, so that they still
have the fields they were read with.  AI tasks come after that.  Parts that stand in the body of a
loop are left to the loop.
-/

namespace PlanFlow
namespace Source

/-- The step that reads a source of rows by an operation. -/
def fetch (s : Source) (operation : String) : Step :=
  ⟨s.fetchId, "Read " ++ s.location, [],
    .action s.plugin operation (Entries.extend [("location", .string s.location)] s.config)⟩

end Source

namespace Emitter

/-- The id of the step that merges the rows of several sources. -/
def mergeId : String := "merge_sources"

/-- The step that merges rows. -/
def mergeStep (first : Handle) (outputs : List Handle) : Step :=
  ⟨mergeId, "Merge source rows", (outputs.flatMap Handle.dependencies).eraseDups,
    .transform .merge first.reference
      [("sources", .strings (outputs.map Handle.reference))]⟩

/-- Reads a source, unless its rows arrive as input. -/
def fetchSource (p : Plan) (s : Source) : Emitter Handle := do
  match s.readOperation with
  | some operation => push (s.fetch operation)
  | none => pure ()
  let output ← locate p "compiler" s.id
  allLoopsOver p s.id output

/-- Reads all sources of rows, and merges them if there are several. -/
def fetchSources (p : Plan) : Emitter Handle := do
  let outputs ← p.candidates.mapM (fetchSource p)
  match outputs with
  | [] => fail .missingPrimarySource
  | [output] => pure output
  | first :: _ => do
    push (mergeStep first outputs)
    pure (.ofStep mergeId)

/-- The filters that no loop runs. -/
def chainFilters (p : Plan) : List Part :=
  (p.filters.map Part.filter).filter fun part => !p.inBody part.id

/-- The partitions and transforms that no loop runs. -/
def chainReshaping (p : Plan) : List Part :=
  (p.partitions.map Part.partition ++ p.transforms.map Part.transform).filter fun part =>
    !p.inBody part.id

/-- The AI tasks that no loop runs. -/
def chainAi (p : Plan) : List Part :=
  (p.aiTasks.map Part.ai).filter fun part => !p.inBody part.id

/-- Reads, filters, checks and reshapes the rows. -/
def ingest (p : Plan) (settings : Settings) : Emitter Handle := do
  let rows ← fetchSources p
  let rows ← emitChain p (chainFilters p) rows
  let rows ← p.lookups.foldlM (fun rows lookup => deduplicate settings lookup rows) rows
  emitChain p (chainReshaping p) rows

/-- Runs the AI tasks on rows. -/
def enrich (p : Plan) (rows : Handle) : Emitter Handle := emitChain p (chainAi p) rows

/-- Emits the loops whose turn never came. -/
def finish (p : Plan) : Emitter Unit :=
  p.loops.forM fun l => do
    if (← get).loops.contains l.id then pure ()
    else
      let rows ← locate p "compiler" l.iterateOver
      let _ ← emitLoop p (allLoopsOver p) l rows

end Emitter
end PlanFlow
