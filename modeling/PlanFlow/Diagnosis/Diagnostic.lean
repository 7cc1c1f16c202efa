import PlanFlow.Diagnosis.Basic
import PlanFlow.Plan.Json

/-!
# Diagnostics

A diagnostic is the written form of an error or a warning: a level, the code, the wording, and the
ids unless there are none.
-/

namespace PlanFlow

/-- How serious a diagnostic is. -/
inductive DiagnosticLevel where
  | error
  | warning
  deriving DecidableEq, Inhabited

namespace DiagnosticLevel

/-- The name of a level in documents. -/
def name : DiagnosticLevel → String
  | .error => "error"
  | .warning => "warning"

/-- Both levels, in the order in which messages list them. -/
def all : List DiagnosticLevel := [.error, .warning]

/-- Reads a level. -/
def decode : Decoder DiagnosticLevel := .choice (alternatives name all)

end DiagnosticLevel

/-- The written form of an error or a warning. -/
structure Diagnostic where
  level : DiagnosticLevel
  code : String
  message : String
  ids : List String
  deriving DecidableEq, Inhabited

namespace Diagnostic

/-- The diagnostic of an error. -/
def ofError (e : PlanError) : Diagnostic := ⟨.error, e.code, e.message, e.ids⟩

/-- The diagnostic of a warning. -/
def ofWarning (w : Warning) : Diagnostic := ⟨.warning, w.code, w.message, w.ids⟩

/-- The fields of a diagnostic. -/
def record : Record Diagnostic :=
  Diagnostic.mk <$> .required "level" DiagnosticLevel.decode <*> .required "code" .text
    <*> .required "message" .text <*> .listOf "ids" .text

/-- Reads a diagnostic. -/
def decode : Decoder Diagnostic := record.decode "struct Diagnostic"

/-- Writes a diagnostic. -/
def encode (d : Diagnostic) : Value :=
  .object ([("level", .string d.level.name), ("code", .string d.code),
    ("message", .string d.message)] ++
    (if d.ids.isEmpty then [] else [("ids", .strings d.ids)]))

end Diagnostic
end PlanFlow
