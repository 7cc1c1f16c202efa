import PlanFlow.Emission.Basic

/-!
# Deduplication

Rows are checked against a lookup source by three steps: one reads the source, one takes the keys of
its records, and one drops the rows whose key is among them.  The steps are emitted once for a
lookup source; asking again gives the same handle and emits nothing.
-/

namespace PlanFlow
namespace Source

/-- The field that holds the key in the records of a lookup source. -/
def effectiveKeyField (s : Source) (defaultKeyField : String) : String :=
  s.keyField.getD defaultKeyField

/-- The field that holds the key in the rows that are checked. -/
def effectiveMatchField (s : Source) (defaultKeyField : String) : String :=
  s.matchField.getD (s.effectiveKeyField defaultKeyField)

/-- The step that reads a lookup source. -/
def readReference (s : Source) : Step :=
  ⟨s.readReferenceId, "read_reference", [],
    .action s.plugin (s.readOperation.getD "read")
      (Entries.extend [("location", .string s.location)] s.config)⟩

/-- The step that takes the keys of a lookup source. -/
def extractKeys (s : Source) (defaultKeyField : String) : Step :=
  ⟨s.extractKeysId, "extract_ids", [s.readReferenceId],
    .transform .extractKeys (Handle.ofStep s.readReferenceId).reference
      [("key_field", .string (s.effectiveKeyField defaultKeyField))]⟩

/-- The step that drops the rows that a lookup source knows. -/
def excludeKnown (s : Source) (defaultKeyField : String) (rows : Handle) : Step :=
  ⟨s.excludeKnownId, "filter_new_items", rows.dependencies ++ [s.extractKeysId],
    .transform .excludeKnown rows.reference
      [("known_keys", .string (Handle.ofStep s.extractKeysId).reference),
        ("match_field", .string (s.effectiveMatchField defaultKeyField))]⟩

end Source

namespace Emission

/-- The ids of a set in ascending order, with one more. -/
def insertId (id : String) : List String → List String
  | [] => [id]
  | x :: rest =>
    if id < x then id :: x :: rest else if id = x then x :: rest else x :: insertId id rest

/-- The emission in which rows are checked against a lookup source, and the rows that are left. -/
def deduplicate (e : Emission) (defaultKeyField : String) (lookup : Source) (rows : Handle) :
    Handle × Emission :=
  if e.checked.contains lookup.id then (.ofStep lookup.excludeKnownId, e)
  else
    (.ofStep lookup.excludeKnownId,
      { e with
        steps := e.steps ++ [lookup.readReference, lookup.extractKeys defaultKeyField,
          lookup.excludeKnown defaultKeyField rows]
        checked := insertId lookup.id e.checked })

end Emission

namespace Emitter

/-- Checks rows against a lookup source. -/
def deduplicate (settings : Settings) (lookup : Source) (rows : Handle) : Emitter Handle :=
  modifyGet fun e => e.deduplicate settings.defaultKeyField lookup rows

end Emitter
end PlanFlow
