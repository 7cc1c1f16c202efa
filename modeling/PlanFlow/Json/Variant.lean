import PlanFlow.Json.Record

/-!
# Decoding variants

Three forms in which a document says which of several variants a value is.

* Tagged: one entry of the object is the name of the variant and the others are its fields; the
  value may also be a list of the name and the fields.
* Flattened: the tagged entries stand among the fields of a surrounding record.
* Adjacent: one entry is the name and another holds the content.

The entry with the name may stand anywhere.  What comes before it has to be read without knowing
what it is, so the fields of a variant are buffered and decoded at the end.
-/

namespace PlanFlow
namespace Decoder

variable {α β : Type}

/-- The variant that a name along the text stands for. -/
def tagName (variants : List (String × α)) (node : Node) : Except Fault α :=
  match node with
  | .string s => s.bind (pick variants)
  | _ => .error (node.mismatch "variant identifier")

/-- The variant that a buffered name stands for; its position among the variants will do. -/
def tagNameOrIndex (variants : List (String × α)) (node : Node) : Except Fault α :=
  match node with
  | .number (.ok (.int n)) =>
    if n < 0 then .error (node.mismatch "variant identifier")
    else match variants[n.toNat]? with
      | some variant => .ok variant.2
      | none => .error (.wrongValue (.number (.int n))
          ("variant index 0 <= i < " ++ toString variants.length))
  | _ => tagName variants node

/-- Takes the entry of a tag out of the entries of an object, in text order; `keep` looks at each
other entry. -/
def takeTag (tag : String) (readTag : Node → Except Fault β) (keep : Node → Except Fault Unit)
    (found : Option β) :
    List (Key × Node) → Except Fault (Option β × List (Key × Node))
  | [] => .ok (found, [])
  | (key, node) :: rest => do
    let k ← key
    if k = tag then
      if found.isSome then .error (.duplicateField tag)
      else takeTag tag readTag keep (some (← readTag node)) rest
    else
      keep node
      let (found, others) ← takeTag tag readTag keep found rest
      .ok (found, (key, node) :: others)

/-- A tagged value of a type that faults call `type`. -/
def tagged (type tag : String) (variants : List (String × Decoder α)) : Decoder α :=
  fun mode node =>
    match node with
    | .object entries ending => do
      let mode ← mode.enter
      let (found, others) ← takeTag tag (tagName variants) (buffer mode) none entries
      check ending.kept
      match found with
      | some decode => decode .buffered (.object others .closed)
      | none => .error (.missingField tag)
    | .array [] ending => do
      let _ ← mode.enter
      check ending.kept
      .error (.missingField tag)
    | .array (first :: rest) ending => do
      let mode ← mode.enter
      let decode ← tagName variants first
      let _ ← valueItems mode rest
      check ending.kept
      decode .buffered (.array rest .closed)
    | _ => .error (node.mismatch ("internally tagged enum " ++ type))

/-- The buffered entries of a flattened tagged value. -/
def taggedEntries (tag : String) (variants : List (String × Decoder α))
    (entries : List (Key × Node)) : Except Fault α := do
  let (found, others) ← takeTag tag (tagNameOrIndex variants) (fun _ => .ok ()) none entries
  match found with
  | some decode => decode .buffered (.object others .closed)
  | none => .error (.missingField tag)

/-- The entries of an object whose keys are not among the names. -/
def othersThan (names : List String) (entries : List (Key × Node)) : List (Key × Node) :=
  entries.filter fun entry =>
    match entry.1 with
    | .ok key => !names.contains key
    | .error _ => true

/-- A record with a flattened part; it is written as an object only. -/
def flattened (type : String) (r : Record (β → α))
    (part : List (Key × Node) → Except Fault β) : Decoder α := fun mode node =>
  match node with
  | .object entries ending => do
    let mode ← mode.enter
    let unknown (node : Node) : Option Fault :=
      match buffer mode node with
      | .ok _ => none
      | .error f => some f
    check (Record.firstFault r.fields mode unknown [] entries)
    check ending.kept
    let build ← r.build (Record.lookupIn mode entries)
    let b ← part (othersThan (r.fields.map Field.name) entries)
    .ok (build b)
  | _ => .error (node.mismatch type)

/-- What is known of an adjacent value after some of its entries. -/
inductive Adjacent (α : Type) where
  | nothing
  | named (decode : Decoder α)
  | content (node : Node)
  | complete (a : α)

/-- Reads the entries of an adjacent value in text order. -/
def adjacentEntries (tag content : String) (variants : List (String × Decoder α))
    (mode : ReadMode) : Adjacent α → List (Key × Node) → Except Fault (Adjacent α)
  | state, [] => .ok state
  | state, (key, node) :: rest => do
    let k ← key
    if k = tag then
      match state with
      | .nothing =>
        adjacentEntries tag content variants mode (.named (← choice variants mode node)) rest
      | .content buffered => do
        let decode ← choice variants mode node
        let a ← decode .buffered buffered
        adjacentEntries tag content variants mode (.complete a) rest
      | .named _ | .complete _ => .error (.duplicateField tag)
    else if k = content then
      match state with
      | .nothing => do
        buffer mode node
        adjacentEntries tag content variants mode (.content node) rest
      | .named decode =>
        adjacentEntries tag content variants mode (.complete (← decode mode node)) rest
      | .content _ | .complete _ => .error (.duplicateField content)
    else do
      check node.ignored
      adjacentEntries tag content variants mode state rest

/-- An adjacent value of a type that faults call `type`. -/
def adjacent (type tag content : String) (variants : List (String × Decoder α)) : Decoder α :=
  let kind := "adjacently tagged enum " ++ type
  fun mode node =>
    match node with
    | .object entries ending => do
      let mode ← mode.enter
      let state ← adjacentEntries tag content variants mode .nothing entries
      check ending.kept
      match state with
      | .complete a => .ok a
      | .named _ => .error (.missingField content)
      | .nothing | .content _ => .error (.missingField tag)
    | .array [] ending => do
      let _ ← mode.enter
      check ending.kept
      .error (.wrongLength 0 kind)
    | .array [name] ending => do
      let mode ← mode.enter
      let _ ← choice variants mode name
      check ending.kept
      .error (.wrongLength 1 kind)
    | .array (name :: inner :: rest) ending => do
      let mode ← mode.enter
      let decode ← choice variants mode name
      let a ← decode mode inner
      check (if rest.isEmpty then ending.surplus else some .trailingText)
      .ok a
    | _ => .error (node.mismatch kind)

end Decoder
end PlanFlow
