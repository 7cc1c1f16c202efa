import PlanFlow.Json.Record

/-!
# Settings

The tunable numbers and names of compilation, and the time that a call of the session store may
take.  Every setting has a default, which it keeps where a document does not mention it.
-/

namespace PlanFlow

/-- The settings of a compilation. -/
structure Settings where
  /-- Workflows deeper than this get a warning. -/
  maxDepthWarning : Nat
  /-- Critical paths longer than this get a warning. -/
  criticalPathWarning : Nat
  /-- The major version of the plans that are supported. -/
  supportedMajor : Nat
  /-- The field that identifies a record where a lookup source names none. -/
  defaultKeyField : String
  deriving DecidableEq

namespace Settings

instance : Inhabited Settings := ⟨⟨10, 12, 1, "id"⟩⟩

/-- The fields of the settings. -/
def record : Record Settings :=
  Settings.mk <$> .withDefault "max_depth_warning" (default : Settings).maxDepthWarning .usize
    <*> .withDefault "critical_path_warning" (default : Settings).criticalPathWarning .usize
    <*> .withDefault "supported_ir_major" (default : Settings).supportedMajor .u32
    <*> .withDefault "default_key_field" (default : Settings).defaultKeyField .text

/-- Reads settings. -/
def decode : Decoder Settings := record.decode "struct CompilerConfig"

/-- Writes settings. -/
def encode (s : Settings) : Value :=
  .object [("max_depth_warning", .nat s.maxDepthWarning),
    ("critical_path_warning", .nat s.criticalPathWarning),
    ("supported_ir_major", .nat s.supportedMajor),
    ("default_key_field", .string s.defaultKeyField)]

end Settings

/-- The settings of session tracking. -/
structure TrackingSettings where
  /-- The milliseconds after which a call of the store is given up. -/
  storeTimeout : Nat
  deriving DecidableEq

namespace TrackingSettings

instance : Inhabited TrackingSettings := ⟨⟨2000⟩⟩

/-- The fields of the settings. -/
def record : Record TrackingSettings :=
  TrackingSettings.mk <$>
    .withDefault "store_timeout_ms" (default : TrackingSettings).storeTimeout .u64

/-- Reads settings. -/
def decode : Decoder TrackingSettings := record.decode "struct TrackingConfig"

/-- Writes settings. -/
def encode (s : TrackingSettings) : Value :=
  .object [("store_timeout_ms", .nat s.storeTimeout)]

end TrackingSettings

/-- All settings. -/
structure Configuration where
  compiler : Settings
  tracking : TrackingSettings
  deriving DecidableEq, Inhabited

namespace Configuration

/-- The fields of the settings. -/
def record : Record Configuration :=
  Configuration.mk <$> .withDefault "compiler" default Settings.decode
    <*> .withDefault "tracking" default TrackingSettings.decode

/-- Reads all settings. -/
def decode : Decoder Configuration := record.decode "struct Config"

/-- Writes all settings. -/
def encode (c : Configuration) : Value :=
  .object [("compiler", c.compiler.encode), ("tracking", c.tracking.encode)]

end Configuration
end PlanFlow
