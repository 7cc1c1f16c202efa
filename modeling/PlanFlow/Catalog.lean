import PlanFlow.Plan.Json

/-!
# The capability catalog

A compilation looks up which plugins a workflow may call, and the parameters of their actions.  The
two lookups are an interface; a catalog that is held in memory, or read from a document, is one way
to answer them.
-/

namespace PlanFlow

/-- What is known of a parameter. -/
structure Parameter where
  type : Option String
  description : Option String
  default : Option Value
  deriving Inhabited

/-- The parameters of an action, and which of them are required. -/
structure ActionSchema where
  parameters : Entries Parameter
  required : List String
  deriving Inhabited

/-- What a workflow may call, as a compilation looks it up: whether there is a plugin of a key, and
the schema of an action if there is one. -/
structure Capabilities where
  hasPlugin : String → Bool
  schema? : String → String → Option ActionSchema
  deriving Inhabited

namespace Capabilities

/-- Whether an action is there. -/
def hasOperation (c : Capabilities) (plugin operation : String) : Bool :=
  (c.schema? plugin operation).isSome

end Capabilities

/-- A plugin with its actions. -/
structure Plugin where
  displayName : Option String
  actions : Entries ActionSchema
  deriving Inhabited

/-- The plugins that are there, by their keys. -/
structure Catalog where
  plugins : Entries Plugin
  deriving Inhabited

namespace Parameter

/-- The fields of a parameter. -/
def record : Record Parameter :=
  Parameter.mk <$> .optional "type" .text <*> .optional "description" .text
    <*> .optional "default" Decoder.value

/-- Reads a parameter. -/
def decode : Decoder Parameter := record.decode "struct ParameterSpec"

/-- Writes a parameter. -/
def encode (p : Parameter) : Value :=
  .object [("type", .text? p.type), ("description", .text? p.description),
    ("default", .any? p.default)]

end Parameter

namespace ActionSchema

/-- The schema that requires the given parameters and says nothing else about them. -/
def requiring (names : List String) : ActionSchema :=
  ⟨Entries.ofList (names.map fun name => (name, ⟨none, none, none⟩)), names⟩

/-- The fields of a schema. -/
def record : Record ActionSchema :=
  ActionSchema.mk <$> .withDefault "parameters" [] (.map Parameter.decode)
    <*> .listOf "required" .text

/-- Reads a schema. -/
def decode : Decoder ActionSchema := record.decode "struct ParameterSchema"

/-- Writes a schema. -/
def encode (s : ActionSchema) : Value :=
  .object [("parameters", .object (s.parameters.mapValues Parameter.encode)),
    ("required", .strings s.required)]

end ActionSchema

namespace Plugin

/-- The fields of a plugin. -/
def record : Record Plugin :=
  Plugin.mk <$> .optional "display_name" .text
    <*> .withDefault "actions" [] (.map ActionSchema.decode)

/-- Reads a plugin. -/
def decode : Decoder Plugin := record.decode "struct PluginDefinition"

/-- Writes a plugin. -/
def encode (p : Plugin) : Value :=
  .object [("display_name", .text? p.displayName),
    ("actions", .object (p.actions.mapValues ActionSchema.encode))]

end Plugin

namespace Catalog

/-- Whether there is a plugin with the key. -/
def hasPlugin (c : Catalog) (plugin : String) : Bool := Entries.contains plugin c.plugins

/-- The schema of an action, if the catalog has the plugin and the plugin the action. -/
def schema? (c : Catalog) (plugin operation : String) : Option ActionSchema :=
  (Entries.find? plugin c.plugins).bind fun p => Entries.find? operation p.actions

/-- The catalog as a compilation sees it. -/
@[coe]
def capabilities (c : Catalog) : Capabilities := ⟨c.hasPlugin, c.schema?⟩

instance : Coe Catalog Capabilities := ⟨capabilities⟩

/-- Whether the catalog has the action. -/
def hasOperation (c : Catalog) (plugin operation : String) : Bool :=
  c.capabilities.hasOperation plugin operation

/-- The catalog with an action added or replaced; its plugin is created if it is not there. -/
def register (c : Catalog) (plugin operation : String) (schema : ActionSchema) : Catalog :=
  ⟨Entries.update plugin default
    (fun p => { p with actions := Entries.insert operation schema p.actions }) c.plugins⟩

/-- The number of plugins. -/
def size (c : Catalog) : Nat := c.plugins.length

/-- The fields of a catalog. -/
def record : Record Catalog :=
  Catalog.mk <$> .withDefault "plugins" [] (.map Plugin.decode)

/-- Reads a catalog. -/
def decode : Decoder Catalog := record.decode "struct InMemoryCatalog"

/-- Writes a catalog. -/
def encode (c : Catalog) : Value :=
  .object [("plugins", .object (c.plugins.mapValues Plugin.encode))]

end Catalog
end PlanFlow
