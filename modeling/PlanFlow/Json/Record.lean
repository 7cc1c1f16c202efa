import PlanFlow.Json.Decoder

/-!
# Decoding records

A `Record` lists the fields of a type in the order of their declaration and builds a value of the
type from the nodes of its fields.  A record is written as an object, or as a list of its fields in
that order; the fields at the end of a list may be absent if they have a default.

An object is first walked in text order: every field is decoded where it stands, unknown entries are
ignored, and the first fault is reported.  Only then is the value built, by looking up each field,
and the first field in the order of declaration that is missing is reported.
-/

namespace PlanFlow

/-- A field of a record: its name, and the fault of a node for it. -/
structure Field where
  name : String
  fault : ReadMode → Node → Option Fault

/-- Where the fields of a record are looked up: the node of each that is present, and the fault of
one that is missing. -/
structure Lookup where
  mode : ReadMode
  node? : String → Option Node
  missing : String → Fault

/-- The fields of a type, in the order of declaration, and its value from their nodes. -/
structure Record (α : Type) where
  fields : List Field
  build : Lookup → Except Fault α

namespace Record

variable {α β : Type}

instance : Functor Record where
  map g r := ⟨r.fields, fun lookup => (r.build lookup).map g⟩

instance : Applicative Record where
  pure a := ⟨[], fun _ => .ok a⟩
  seq f r := ⟨f.fields ++ (r ()).fields, fun lookup => do
    let g ← f.build lookup
    let a ← (r ()).build lookup
    .ok (g a)⟩

/-- The field that a decoder reads. -/
def field (name : String) (decode : Decoder α) : Field :=
  ⟨name, fun mode node =>
    match decode mode node with
    | .ok _ => none
    | .error f => some f⟩

/-- A field that has to be present. -/
def required (name : String) (decode : Decoder α) : Record α :=
  ⟨[field name decode], fun lookup =>
    match lookup.node? name with
    | some node => decode lookup.mode node
    | none => .error (lookup.missing name)⟩

/-- A field that may be absent, and then has a default. -/
def withDefault (name : String) (default : α) (decode : Decoder α) : Record α :=
  ⟨[field name decode], fun lookup =>
    match lookup.node? name with
    | some node => decode lookup.mode node
    | none => .ok default⟩

/-- A field that may be absent or null. -/
def optional (name : String) (decode : Decoder α) : Record (Option α) :=
  withDefault name none (Decoder.nullable decode)

/-- A list that may be absent, and is empty then. -/
def listOf (name : String) (decode : Decoder α) : Record (List α) :=
  withDefault name [] (Decoder.list decode)

/-- The node of a key, of the first entry that has it. -/
def nodeOf (entries : List (Key × Node)) (name : String) : Option Node :=
  match entries with
  | [] => none
  | (.ok key, node) :: rest => if key = name then some node else nodeOf rest name
  | (.error _, _) :: rest => nodeOf rest name

/-- The first fault of the entries of an object in text order, where `seen` holds the fields that
came before; an entry that is no field goes to `unknown`. -/
def firstFault (fields : List Field) (mode : ReadMode) (unknown : Node → Option Fault)
    (seen : List String) : List (Key × Node) → Option Fault
  | [] => none
  | (.error f, _) :: _ => some f
  | (.ok key, node) :: rest =>
    match fields.find? fun field => field.name == key with
    | none => (unknown node).or (firstFault fields mode unknown seen rest)
    | some field =>
      if seen.contains key then some (.duplicateField key)
      else (field.fault mode node).or (firstFault fields mode unknown (key :: seen) rest)

/-- Looks the fields up among the entries of an object. -/
def lookupIn (mode : ReadMode) (entries : List (Key × Node)) : Lookup :=
  ⟨mode, nodeOf entries, .missingField⟩

/-- Reads the record from an object; an entry that is no field is ignored. -/
def ofEntries (r : Record α) (mode : ReadMode) (entries : List (Key × Node))
    (ending : ObjectEnd) : Except Fault α := do
  Decoder.check (firstFault r.fields mode Node.ignored [] entries)
  Decoder.check ending.kept
  r.build (lookupIn mode entries)

/-- A number of elements. -/
def elements (n : Nat) : String := if n = 1 then "1 element" else toString n ++ " elements"

/-- The first fault of the items of a list that are fields. -/
def firstItemFault (mode : ReadMode) : List Field → List Node → Option Fault
  | field :: fields, node :: nodes =>
    (field.fault mode node).or (firstItemFault mode fields nodes)
  | _, _ => none

/-- Reads the record, a type that faults call `type`, from a list of its fields. -/
def ofItems (r : Record α) (type : String) (mode : ReadMode) (nodes : List Node)
    (ending : ListEnd) : Except Fault α := do
  let names := r.fields.map Field.name
  let size := names.length
  Decoder.check (firstItemFault mode r.fields nodes)
  if nodes.length < size then Decoder.check ending.kept
  let result ← r.build {
    mode := mode
    node? := fun name => nodes[names.idxOf name]?
    missing := fun name => .wrongLength (names.idxOf name) (type ++ " with " ++ elements size) }
  if nodes.length < size then .ok result
  else match mode with
    | .streamed _ => do
      Decoder.check (if size < nodes.length then some .trailingText else ending.surplus)
      .ok result
    | .buffered =>
      if size < nodes.length then
        .error (.wrongLength nodes.length (elements size ++ " in sequence"))
      else .ok result

/-- Reads the record, a type that faults call `type`. -/
def decode (type : String) (r : Record α) : Decoder α := fun mode node =>
  match node with
  | .object entries ending => do r.ofEntries (← mode.enter) entries ending
  | .array nodes ending => do r.ofItems type (← mode.enter) nodes ending
  | _ => .error (node.mismatch type)

end Record
end PlanFlow
