import PlanFlow.Json.Node

/-!
# Decoders

A decoder turns a node into a value of some type, or gives the first fault that it meets.  A node
is read in one of two modes.  Streamed reading follows the text and may enter only so many nested
lists and objects.  Buffered reading looks at a part that has already been read as a whole, because
the entry that says what it holds may stand anywhere in it; such a part has no fault of the text.
-/

namespace PlanFlow

/-- How a node is read. -/
inductive ReadMode where
  /-- Along the text, with room for so many nested lists and objects. -/
  | streamed (room : Nat)
  /-- In a part that has been read as a whole. -/
  | buffered
  deriving DecidableEq, Inhabited

namespace ReadMode

/-- The mode inside a list or an object. -/
def enter : ReadMode → Except Fault ReadMode
  | .streamed 0 => .error .tooDeep
  | .streamed (room + 1) => .ok (.streamed room)
  | .buffered => .ok .buffered

/-- A document may nest this many lists and objects. -/
def depthLimit : Nat := 127

end ReadMode

/-- A reader of nodes. -/
abbrev Decoder (α : Type) := ReadMode → Node → Except Fault α

namespace Decoder

variable {α β : Type}

/-- Fails with a fault, if there is one. -/
def check (fault : Option Fault) : Except Fault Unit :=
  match fault with
  | some f => .error f
  | none => .ok ()

/-- Reads a whole text, after which only blanks may follow. -/
def ofText (decode : Decoder α) (text : String) : Except Fault α := do
  let document := Document.ofText text
  let result ← decode (.streamed ReadMode.depthLimit) document.root
  if document.trailing then .error .trailingText else .ok result

/-- Reads a value that is not part of a text. -/
def ofValue (decode : Decoder α) (v : Value) : Except Fault α := decode .buffered (.ofValue v)

/-- A text. -/
def text : Decoder String := fun _ node =>
  match node with
  | .string s => s
  | _ => .error (node.mismatch "a string")

/-- A truth value. -/
def bool : Decoder Bool := fun _ node =>
  match node with
  | .bool b => .ok b
  | _ => .error (node.mismatch "a boolean")

/-- A natural number of a type of so many bits. -/
def natural (bits : Nat) (type : String) : Decoder Nat := fun _ node =>
  match node with
  | .number (.ok (.int n)) =>
    if 0 ≤ n ∧ n.toNat < Nat.pow 2 bits then .ok n.toNat
    else .error (.wrongValue (.number (.int n)) type)
  | _ => .error (node.mismatch type)

/-- A natural number of 32 bits. -/
def u32 : Decoder Nat := natural 32 "u32"

/-- A natural number of 64 bits. -/
def u64 : Decoder Nat := natural 64 "u64"

/-- A natural number of the machine's word. -/
def usize : Decoder Nat := natural 64 "usize"

/-- A binary64 number; an integer is rounded. -/
def f64 : Decoder Binary64 := fun _ node =>
  match node with
  | .number (.ok n) => .ok n.toBinary64
  | _ => .error (node.mismatch "f64")

/-- The items of a list, in order. -/
def items (decode : Decoder α) (mode : ReadMode) : List Node → Except Fault (List α)
  | [] => .ok []
  | node :: rest => do
    let a ← decode mode node
    let as ← items decode mode rest
    .ok (a :: as)

/-- A list. -/
def list (decode : Decoder α) : Decoder (List α) := fun mode node =>
  match node with
  | .array nodes ending => do
    let mode ← mode.enter
    let as ← items decode mode nodes
    check ending.kept
    .ok as
  | _ => .error (node.mismatch "a sequence")

/-- The entries of a map, in text order. -/
def entries (decode : Decoder α) (mode : ReadMode) :
    List (Key × Node) → Except Fault (List (String × α))
  | [] => .ok []
  | (key, node) :: rest => do
    let k ← key
    let a ← decode mode node
    let as ← entries decode mode rest
    .ok ((k, a) :: as)

/-- A map from texts; the last entry of a key wins. -/
def map (decode : Decoder α) : Decoder (Entries α) := fun mode node =>
  match node with
  | .object nodes ending => do
    let mode ← mode.enter
    let as ← entries decode mode nodes
    check ending.kept
    .ok (Entries.ofList as)
  | _ => .error (node.mismatch "a map")

/-- Something that may be null. -/
def nullable (decode : Decoder α) : Decoder (Option α) := fun mode node =>
  match node with
  | .null => .ok none
  | _ => (decode mode node).map some

mutual

/-- A value of any kind, in canonical form. -/
def value (mode : ReadMode) : Node → Except Fault Value
  | .null => .ok .null
  | .bool b => .ok (.bool b)
  | .number n => n.map .number
  | .string s => s.map .string
  | .array nodes ending => do
    let mode ← mode.enter
    let vs ← valueItems mode nodes
    check ending.kept
    .ok (.array vs)
  | .object nodes ending => do
    let mode ← mode.enter
    let vs ← valueEntries mode nodes
    check ending.kept
    .ok (.object (Entries.ofList vs))
  | .broken b => .error b.kept

/-- The items of a list of any values. -/
def valueItems (mode : ReadMode) : List Node → Except Fault (List Value)
  | [] => .ok []
  | node :: rest => do
    let v ← value mode node
    let vs ← valueItems mode rest
    .ok (v :: vs)

/-- The entries of an object of any values, in text order. -/
def valueEntries (mode : ReadMode) : List (Key × Node) → Except Fault (List (String × Value))
  | [] => .ok []
  | (key, node) :: rest => do
    let k ← key
    let v ← value mode node
    let vs ← valueEntries mode rest
    .ok ((k, v) :: vs)

end

/-- An object of any values. -/
def object : Decoder (Entries Value) := map value

/-- Reads a part as a whole, to look at it later. -/
def buffer (mode : ReadMode) (node : Node) : Except Fault Unit := (value mode node).map fun _ => ()

/-- The alternative of a name. -/
def pick (alternatives : List (String × α)) (name : String) : Except Fault α :=
  match Entries.find? name alternatives with
  | some a => .ok a
  | none => .error (.unknownVariant name (alternatives.map Prod.fst))

/-- What follows the name of an alternative that is given as the key of an object: null. -/
def unit (node : Node) : Except Fault Unit :=
  match node with
  | .null => .ok ()
  | _ => .error (node.mismatch "unit")

/-- One of several names, read along the text: a string, or an object with the name as its only key
and null as its value. -/
def streamedChoice (alternatives : List (String × α)) (mode : ReadMode) :
    Node → Except Fault α
  | .string s => s.bind (pick alternatives)
  | .object [] ending => do
    let _ ← mode.enter
    match ending with
    | .cut => .error .endInValue
    | .notKey named => .error named
    | .brokenKey b => .error b.kept
    | .closed | .danglingComma | .cutAfterComma | .noSeparator => .error .expectedValue
  | .object ((key, node) :: rest) ending => do
    let _ ← mode.enter
    let k ← key
    let a ← pick alternatives k
    unit node
    match rest, ending with
    | [], .closed => .ok a
    | [], .cut => .error .endInObject
    | _, _ => .error .expectedValue
  | .broken b => .error b.named
  | .null | .bool _ | .number _ | .array _ _ => .error .expectedValue

/-- One of several names in a part that was read as a whole. -/
def bufferedChoice (alternatives : List (String × α)) (node : Node) : Except Fault α :=
  match node with
  | .string s => s.bind (pick alternatives)
  | .object [(key, inner)] _ => do
    let k ← key
    let a ← pick alternatives k
    match inner with
    | .null => .ok a
    | .object [] _ => .ok a
    | _ => .error (inner.mismatch "unit")
  | .object _ _ => .error (.wrongValue .map "map with a single key")
  | _ => .error (node.mismatch "string or map")

/-- One of several names. -/
def choice (alternatives : List (String × α)) : Decoder α := fun mode node =>
  match mode with
  | .streamed _ => streamedChoice alternatives mode node
  | .buffered => bufferedChoice alternatives node

end Decoder
end PlanFlow
