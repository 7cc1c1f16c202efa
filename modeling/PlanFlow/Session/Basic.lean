import PlanFlow.Json.Variant
import PlanFlow.Session.Timestamp
import PlanFlow.Session.Uuid

/-!
# Sessions

A session is the record of one run: what it started from, its stages with their input and output,
and how it ended.  A stage whose output is missing was not completed, as far as the record knows.
-/

namespace PlanFlow

/-- What a run starts from. -/
inductive InputPath where
  | planFirst
  | draftFirst
  deriving DecidableEq, Inhabited

/-- The input of a run. -/
inductive SessionInput where
  | prompt (text : String)
  | plan (document : Value)
  | draft (document : Value)
  deriving Inhabited

/-- The AI provider and the model that a run uses. -/
structure Provider where
  name : String
  model : String
  deriving DecidableEq, Inhabited

/-- The record of a stage. -/
structure Stage where
  index : Nat
  name : String
  input : Value
  output : Option Value
  startedAt : Timestamp
  completedAt : Option Timestamp
  deriving Inhabited

/-- How a session stands. -/
inductive SessionStatus where
  | inProgress
  | completed (output : Value)
  | failed (error : String)
  deriving Inhabited

/-- The record of a run. -/
structure Session where
  id : Uuid
  path : InputPath
  input : SessionInput
  provider : Option Provider
  stages : List Stage
  status : SessionStatus
  createdAt : Timestamp
  closedAt : Option Timestamp
  deriving Inhabited

namespace InputPath

/-- The name of a path in documents. -/
def name : InputPath → String
  | .planFirst => "ir_first"
  | .draftFirst => "technical_workflow_first"

/-- Both paths, by their names. -/
def alternatives : List (String × InputPath) :=
  [(planFirst.name, .planFirst), (draftFirst.name, .draftFirst)]

/-- Reads a path. -/
def decode : Decoder InputPath := .choice alternatives

/-- Writes a path. -/
def encode (p : InputPath) : Value := .string p.name

end InputPath

namespace SessionInput

/-- What the run starts from. -/
def path : SessionInput → InputPath
  | .prompt _ | .plan _ => .planFirst
  | .draft _ => .draftFirst

/-- The kinds of input, each with the reader of its content. -/
def variants : List (String × Decoder SessionInput) :=
  [("enhanced_prompt", fun mode node => (Decoder.text mode node).map .prompt),
    ("logical_ir", fun mode node => (Decoder.value mode node).map .plan),
    ("technical_workflow", fun mode node => (Decoder.value mode node).map .draft)]

/-- Reads the input of a run. -/
def decode : Decoder SessionInput := .adjacent "SessionInput" "kind" "payload" variants

/-- Writes the input of a run. -/
def encode : SessionInput → Value
  | .prompt text => .object [("kind", .string "enhanced_prompt"), ("payload", .string text)]
  | .plan document => .object [("kind", .string "logical_ir"), ("payload", document)]
  | .draft document => .object [("kind", .string "technical_workflow"), ("payload", document)]

end SessionInput

namespace Provider

/-- The fields of a provider. -/
def record : Record Provider :=
  Provider.mk <$> .required "provider" .text <*> .required "model" .text

/-- Reads a provider. -/
def decode : Decoder Provider := record.decode "struct ProviderContext"

/-- Writes a provider. -/
def encode (p : Provider) : Value :=
  .object [("provider", .string p.name), ("model", .string p.model)]

end Provider

namespace Stage

/-- The fields of a stage. -/
def record : Record Stage :=
  Stage.mk <$> .required "index" .u32 <*> .required "name" .text
    <*> .required "input" Decoder.value <*> .optional "output" Decoder.value
    <*> .required "started_at" Timestamp.decode <*> .optional "completed_at" Timestamp.decode

/-- Reads a stage. -/
def decode : Decoder Stage := record.decode "struct StageRecord"

/-- Writes a stage. -/
def encode (s : Stage) : Value :=
  .object [("index", .nat s.index), ("name", .string s.name), ("input", s.input),
    ("output", .ofOption id s.output), ("started_at", s.startedAt.encode),
    ("completed_at", .ofOption Timestamp.encode s.completedAt)]

end Stage

namespace SessionStatus

/-- Whether the session is over. -/
def isTerminal : SessionStatus → Bool
  | .inProgress => false
  | .completed _ | .failed _ => true

/-- The fields of a session that goes on; there are none. -/
def inProgressRecord : Record SessionStatus := pure .inProgress

/-- The fields of a session that has succeeded. -/
def completedRecord : Record SessionStatus :=
  SessionStatus.completed <$> .required "output" Decoder.value

/-- The fields of a session that has failed. -/
def failedRecord : Record SessionStatus := SessionStatus.failed <$> .required "error" .text

/-- The kinds of status, each with the reader of its fields. -/
def variants : List (String × Decoder SessionStatus) :=
  [("in_progress", inProgressRecord.decode "unit variant SessionStatus::InProgress"),
    ("completed", completedRecord.decode "struct variant SessionStatus::Completed"),
    ("failed", failedRecord.decode "struct variant SessionStatus::Failed")]

/-- Reads a status. -/
def decode : Decoder SessionStatus := .tagged "SessionStatus" "status" variants

/-- Writes a status. -/
def encode : SessionStatus → Value
  | .inProgress => .object [("status", .string "in_progress")]
  | .completed output => .object [("status", .string "completed"), ("output", output)]
  | .failed error => .object [("status", .string "failed"), ("error", .string error)]

end SessionStatus

namespace Session

/-- A run that has just started. -/
def start (id : Uuid) (input : SessionInput) (provider : Option Provider) (now : Timestamp) :
    Session :=
  ⟨id, input.path, input, provider, [], .inProgress, now, none⟩

/-- The fields of a session. -/
def record : Record Session :=
  Session.mk <$> .required "id" Uuid.decode <*> .required "input_path" InputPath.decode
    <*> .required "input" SessionInput.decode <*> .optional "provider" Provider.decode
    <*> .listOf "stages" Stage.decode <*> .required "status" SessionStatus.decode
    <*> .required "created_at" Timestamp.decode <*> .optional "closed_at" Timestamp.decode

/-- Reads a session. -/
def decode : Decoder Session := record.decode "struct GenerationSession"

/-- Writes a session. -/
def encode (s : Session) : Value :=
  .object [("id", s.id.encode), ("input_path", s.path.encode), ("input", s.input.encode),
    ("provider", .ofOption Provider.encode s.provider),
    ("stages", .array (s.stages.map Stage.encode)), ("status", s.status.encode),
    ("created_at", s.createdAt.encode), ("closed_at", .ofOption Timestamp.encode s.closedAt)]

end Session
end PlanFlow
