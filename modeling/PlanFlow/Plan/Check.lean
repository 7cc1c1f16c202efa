import PlanFlow.Diagnosis.Basic
import PlanFlow.Ids
import PlanFlow.Plan.Basic
import PlanFlow.Settings

/-!
# Checking plans

`Plan.errors` lists everything that makes compiling a plan pointless: the version, open questions,
missing sources and deliveries, ids that are used twice, and references to ids that do not exist.
All of it is reported, not only the first.

There are three kinds of references.  A part may depend on, and a loop may iterate over, any source,
filter, transform, AI task, partition or loop.  The body of a loop holds filters, transforms, AI
tasks and partitions.  A branch leads to deliveries.
-/

namespace PlanFlow
namespace Plan

/-- The number that a text of decimal digits stands for, with a plus sign allowed in front, if it
has 32 bits. -/
def parseMajor (s : List Char) : Option Nat :=
  let digits := match s with
    | '+' :: rest => rest
    | _ => s
  if digits.isEmpty then none
  else if digits.all fun c => decide ('0' ≤ c ∧ c ≤ '9') then
    let n := digits.foldl (fun n c => n * 10 + (c.toNat - '0'.toNat)) 0
    if n < Nat.pow 2 32 then some n else none
  else none

/-- The major part of a version such as `v1.2`. -/
def majorOf (version : String) : Option Nat :=
  parseMajor (((Text.trim version.toList).dropWhile (· == 'v')).takeWhile (· != '.'))

/-- The version is not supported. -/
def versionErrors (p : Plan) (settings : Settings) : List PlanError :=
  if majorOf p.version = some settings.supportedMajor then []
  else [.unsupportedVersion p.version settings.supportedMajor]

/-- The questions that are open, without the blanks around them. -/
def openQuestions (p : Plan) : List String :=
  (p.clarifications.map fun c => String.ofList (Text.trim c.toList)).filter (· != "")

/-- Questions are open. -/
def questionErrors (p : Plan) : List PlanError :=
  if p.openQuestions.isEmpty then [] else [.clarificationsRequired p.openQuestions]

/-- Nothing to read, or nothing to read but lookups. -/
def sourceErrors (p : Plan) : List PlanError :=
  if p.sources.isEmpty then [.missingSource]
  else if p.candidates.isEmpty then [.missingPrimarySource]
  else []

/-- Nothing to deliver. -/
def deliveryErrors (p : Plan) : List PlanError :=
  if p.deliveries.isEmpty then [.missingDelivery] else []

/-- All ids that a plan declares. -/
def ids (p : Plan) : List String :=
  p.sources.map Source.id ++ p.filters.map Filter.id ++ p.transforms.map Transform.id ++
    p.aiTasks.map AiTask.id ++ p.partitions.map Partition.id ++ p.loops.map Loop.id ++
    p.branches.map Branch.id ++ p.keyedDeliveries.map Prod.fst

/-- The ids that can be depended on or iterated over. -/
def inputIds (p : Plan) : List String :=
  p.sources.map Source.id ++ p.filters.map Filter.id ++ p.transforms.map Transform.id ++
    p.aiTasks.map AiTask.id ++ p.partitions.map Partition.id ++ p.loops.map Loop.id

/-- The ids that can stand in the body of a loop. -/
def bodyIds (p : Plan) : List String :=
  p.filters.map Filter.id ++ p.transforms.map Transform.id ++ p.aiTasks.map AiTask.id ++
    p.partitions.map Partition.id

/-- The ids of the deliveries. -/
def deliveryIds (p : Plan) : List String := p.keyedDeliveries.map Prod.fst

/-- What the parts of a plan depend on, part by part. -/
def dependsOn (p : Plan) : List (String × List String) :=
  p.filters.map (fun f => (f.id, f.dependsOn)) ++
    p.transforms.map (fun t => (t.id, t.dependsOn)) ++
    p.aiTasks.map (fun a => (a.id, a.dependsOn)) ++
    p.partitions.map (fun q => (q.id, q.dependsOn))

/-- The errors of references from one part, of which the known ones are none. -/
def unknownAmong (referrer : String) (known references : List String) : List PlanError :=
  (references.filter fun id => !known.contains id).map (.unknownReference referrer)

/-- References that lead nowhere. -/
def referenceErrors (p : Plan) : List PlanError :=
  (p.dependsOn.flatMap fun (id, references) => unknownAmong id p.inputIds references) ++
    (p.loops.flatMap fun l =>
      unknownAmong l.id p.inputIds [l.iterateOver] ++ unknownAmong l.id p.bodyIds l.body) ++
    (p.branches.flatMap fun b =>
      unknownAmong b.id p.deliveryIds (b.thenDeliver ++ b.elseDeliver))

/-- All errors of a plan. -/
def errors (p : Plan) (settings : Settings) : List PlanError :=
  p.versionErrors settings ++ p.questionErrors ++ p.sourceErrors ++ p.deliveryErrors ++
    (Ids.repeated p.ids).map .duplicateId ++ p.referenceErrors

end Plan
end PlanFlow
