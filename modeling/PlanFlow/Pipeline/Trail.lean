import PlanFlow.Plan.Draft
import PlanFlow.Session.Tracker

/-!
# Trails

A trail is a part of a run: the events that it records and what comes of it.  Trails follow one
another; one that fails keeps its events and ends the run.
-/

namespace PlanFlow

/-- Why a run stops before there is anything to compile. -/
inductive PipelineFault where
  /-- The run needs a collaborator that is not there. -/
  | missingCollaborator (entry collaborator : String)
  /-- A collaborator failed. -/
  | stageFailed (stage detail : String)
  /-- A draft is no plan. -/
  | draft (fault : DraftFault)
  deriving DecidableEq

namespace PipelineFault

/-- The wording of the fault. -/
def message : PipelineFault → String
  | .missingCollaborator entry collaborator =>
    "Pipeline entry '" ++ entry ++ "' needs a " ++ collaborator ++ ", but none was configured"
  | .stageFailed stage detail => "Upstream stage '" ++ stage ++ "' failed: " ++ detail
  | .draft fault => fault.message

end PipelineFault

/-- A part of a run: its events in order, and its result. -/
structure Trail (α : Type) where
  events : List SessionEvent
  result : Except PipelineFault α

namespace Trail

variable {α β : Type}

/-- Goes on with the result of a trail, if there is one. -/
def andThen (t : Trail α) (next : α → Trail β) : Trail β :=
  match t.result with
  | .ok a => ⟨t.events ++ (next a).events, (next a).result⟩
  | .error fault => ⟨t.events, .error fault⟩

instance : Monad Trail where
  pure a := ⟨[], .ok a⟩
  bind := andThen

/-- Stops without an event. -/
def stop (fault : PipelineFault) : Trail α := ⟨[], .error fault⟩

/-- The collaborator that is there, or a fault. -/
def require (entry collaborator : String) : Option α → Trail α
  | some a => pure a
  | none => stop (.missingCollaborator entry collaborator)

/-- The written form of a result. -/
def outputOf (encode : α → Value) : Except PipelineFault α → Value
  | .ok a => (encode a).canonical
  | .error fault => .object [("error", .string fault.message)]

/-- A stage: its input and what came of it are recorded. -/
def stage (name : String) (input : Value) (encode : α → Value) (result : Except PipelineFault α) :
    Trail α :=
  ⟨[.addStage name input.canonical, .completeStage (outputOf encode result)], result⟩

end Trail
end PlanFlow
