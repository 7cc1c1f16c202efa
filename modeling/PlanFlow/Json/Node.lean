import PlanFlow.Json.Token

/-!
# Documents as they were read

A `Node` is the tree of a document, of which any part may be broken off.  It is built before it is
known what the document should hold, so a fault of the text stands in the tree where the text has
it, and is reported only by a reader who gets there.  A reader of a shape walks the tree in text
order, so he meets first what stands first, be it a fault of the text or of the shape.

How a list or an object ends stands in its node.  A reader who keeps the part and one who ignores
it name some of these faults differently.
-/

namespace PlanFlow

/-- How the items of a list end. -/
inductive ListEnd where
  /-- With a closing bracket. -/
  | closed
  /-- The text ends, or breaks off inside the last item. -/
  | cut
  /-- With a comma before the closing bracket. -/
  | danglingComma
  /-- With a comma at which the text ends. -/
  | cutAfterComma
  /-- Something else than a comma follows the last item. -/
  | noSeparator
  deriving DecidableEq, Inhabited

/-- How the entries of an object end. -/
inductive ObjectEnd where
  /-- With a closing brace. -/
  | closed
  /-- The text ends, or breaks off inside the last entry. -/
  | cut
  /-- With a comma before the closing brace. -/
  | danglingComma
  /-- With a comma at which the text ends. -/
  | cutAfterComma
  /-- Something else than a comma follows the last entry. -/
  | noSeparator
  /-- Something that is not a string stands where a key should; `named` is the fault for a reader
  who wants a plain name there. -/
  | notKey (named : Fault)
  /-- The string of a key breaks off. -/
  | brokenKey (b : Break)
  deriving DecidableEq, Inhabited

namespace ListEnd

/-- The fault of an ending for a reader who keeps the list. -/
def kept : ListEnd → Option Fault
  | .closed => none
  | .cut => some .endInList
  | .danglingComma => some .trailingComma
  | .cutAfterComma => some .endInValue
  | .noSeparator => some .expectedCommaOrBracket

/-- The fault of an ending for a reader who ignores the list. -/
def ignored : ListEnd → Option Fault
  | .danglingComma => some .expectedValue
  | ending => ending.kept

/-- The fault of an ending for a reader who wants no more items. -/
def surplus : ListEnd → Option Fault
  | .closed => none
  | .cut => some .endInList
  | .danglingComma => some .trailingComma
  | .cutAfterComma | .noSeparator => some .trailingText

end ListEnd

namespace ObjectEnd

/-- The fault of an ending for a reader who keeps the object. -/
def kept : ObjectEnd → Option Fault
  | .closed => none
  | .cut => some .endInObject
  | .danglingComma => some .trailingComma
  | .cutAfterComma => some .endInValue
  | .noSeparator => some .expectedCommaOrBrace
  | .notKey _ => some .keyNotString
  | .brokenKey b => some b.kept

/-- The fault of an ending for a reader who ignores the object. -/
def ignored : ObjectEnd → Option Fault
  | .danglingComma => some .keyNotString
  | .cutAfterComma => some .endInObject
  | .brokenKey b => some b.ignored
  | ending => ending.kept

end ObjectEnd

/-- The text of a string, or the fault that a reader who keeps it meets. -/
abbrev Key := Except Fault String

/-- A document as it was read, or a part of one. -/
inductive Node where
  | null
  | bool (b : Bool)
  | number (n : Except Fault Number)
  | string (s : Except Fault String)
  | array (items : List Node) (ending : ListEnd)
  | object (entries : List (Key × Node)) (ending : ObjectEnd)
  | broken (b : Break)
  deriving Inhabited

namespace Node

mutual

/-- The node of a value. -/
def ofValue : Value → Node
  | .null => .null
  | .bool b => .bool b
  | .number n => .number (.ok n)
  | .string s => .string (.ok s)
  | .array items => .array (ofItems items) .closed
  | .object entries => .object (ofEntries entries) .closed

/-- The nodes of the items of an array. -/
def ofItems : List Value → List Node
  | [] => []
  | v :: rest => ofValue v :: ofItems rest

/-- The nodes of the entries of an object. -/
def ofEntries : List (String × Value) → List (Key × Node)
  | [] => []
  | (k, v) :: rest => (.ok k, ofValue v) :: ofEntries rest

end

mutual

/-- The first fault for a reader who ignores the node. -/
def ignored : Node → Option Fault
  | .array items ending => (ignoredItems items).or ending.ignored
  | .object entries ending => (ignoredEntries entries).or ending.ignored
  | .broken b => some b.ignored
  | .null | .bool _ | .number _ | .string _ => none

/-- The first fault among items that are ignored. -/
def ignoredItems : List Node → Option Fault
  | [] => none
  | node :: rest => (ignored node).or (ignoredItems rest)

/-- The first fault among entries that are ignored. -/
def ignoredEntries : List (Key × Node) → Option Fault
  | [] => none
  | (_, node) :: rest => (ignored node).or (ignoredEntries rest)

end

/-- What was found, for a message about the type of a node; a broken node gives its own fault. -/
def found : Node → Except Fault Found
  | .null => .ok .null
  | .bool b => .ok (.bool b)
  | .number n => n.map .number
  | .string s => s.map .string
  | .array _ _ => .ok .sequence
  | .object _ _ => .ok .map
  | .broken b => .error b.kept

/-- The fault of a node that is not of the wanted type. -/
def mismatch (wanted : String) (node : Node) : Fault :=
  match node.found with
  | .ok found => .wrongType found wanted
  | .error f => f

end Node

/-- A list or an object that is still open, its items or entries from the last to the first; an
object may wait for the value of a key. -/
inductive OpenNode where
  | array (items : List Node)
  | object (entries : List (Key × Node)) (pending : Option Key)

namespace OpenNode

/-- The open node with a value in it. -/
def add (node : Node) : OpenNode → OpenNode
  | .array items => .array (node :: items)
  | .object entries none => .object entries none
  | .object entries (some key) => .object ((key, node) :: entries) none

/-- The node that breaks off here. -/
def cut : OpenNode → Node
  | .array items => .array items.reverse .cut
  | .object entries _ => .object entries.reverse .cut

end OpenNode

/-- What the reader of a document wants next. -/
inductive Wanted where
  /-- The value of the document, of an entry, or of an item after a comma. -/
  | value
  /-- The first item of a list, or its end. -/
  | firstItem
  /-- A comma or the end, after an item or an entry. -/
  | separator
  /-- The first key of an object, or its end. -/
  | firstKey
  /-- A key after a comma. -/
  | nextKey
  /-- The colon after a key. -/
  | colon (key : Key)
  /-- Nothing: the document is complete. -/
  | nothing (root : Node)

/-- A document: its value, and whether more text follows. -/
structure Document where
  root : Node
  trailing : Bool

namespace Document

/-- The innermost node of a document that breaks off in it, put into the open nodes around. -/
def abandon (node : Node) (around : List OpenNode) : Node :=
  around.foldl (fun node outer => (outer.add node).cut) node

/-- The reader has a complete value. -/
def place (node : Node) : List OpenNode → Wanted × List OpenNode
  | [] => (.nothing node, [])
  | outer :: rest => (.separator, outer.add node :: rest)

/-- The token stands where a plain name should be the key of an object. -/
def notKey : Token → ObjectEnd
  | .null => .notKey (.wrongType .null "variant identifier")
  | .bool b => .notKey (.wrongType (.bool b) "variant identifier")
  | .number (.ok n) => .notKey (.wrongType (.number n) "variant identifier")
  | .number (.error f) => .notKey f
  | .openArray => .notKey (.wrongType .sequence "variant identifier")
  | .openObject => .notKey (.wrongType .map "variant identifier")
  | .broken b => .notKey b.kept
  | .brokenString b => .brokenKey b
  | .closeArray | .closeObject | .comma | .colon | .string _ => .notKey .expectedValue

/-- The reader meets a token: either it goes on, or the document breaks off and is this node. -/
def step (wanted : Wanted) (around : List OpenNode) (token : Token) :
    Except Node (Wanted × List OpenNode) :=
  let value : Except Node (Wanted × List OpenNode) :=
    match token with
    | .null => .ok (place .null around)
    | .bool b => .ok (place (.bool b) around)
    | .number n => .ok (place (.number n) around)
    | .string s => .ok (place (.string s) around)
    | .openArray => .ok (.firstItem, .array [] :: around)
    | .openObject => .ok (.firstKey, .object [] none :: around)
    | .broken b | .brokenString b => .error (abandon (.broken b) around)
    | .closeArray | .closeObject | .comma | .colon =>
      .error (abandon (.broken (.all .expectedValue)) around)
  match wanted, around, token with
  | .nothing root, _, _ => .ok (.nothing root, [])
  | .firstItem, .array items :: rest, .closeArray =>
    .ok (place (.array items.reverse .closed) rest)
  | .firstItem, _, _ => value
  | .separator, .array items :: rest, .closeArray =>
    .ok (place (.array items.reverse .closed) rest)
  | .separator, .array items :: rest, .comma => .ok (.value, .array items :: rest)
  | .separator, .array items :: rest, _ =>
    .error (abandon (.array items.reverse .noSeparator) rest)
  | .separator, .object entries _ :: rest, .closeObject =>
    .ok (place (.object entries.reverse .closed) rest)
  | .separator, .object entries _ :: rest, .comma => .ok (.nextKey, .object entries none :: rest)
  | .separator, .object entries _ :: rest, _ =>
    .error (abandon (.object entries.reverse .noSeparator) rest)
  | .separator, [], _ => value
  | .value, .array items :: rest, .closeArray =>
    .error (abandon (.array items.reverse .danglingComma) rest)
  | .value, _, _ => value
  | .firstKey, .object entries _ :: rest, .closeObject =>
    .ok (place (.object entries.reverse .closed) rest)
  | .nextKey, .object entries _ :: rest, .closeObject =>
    .error (abandon (.object entries.reverse .danglingComma) rest)
  | .firstKey, _, .string key | .nextKey, _, .string key => .ok (.colon key, around)
  | .firstKey, .object entries _ :: rest, _ | .nextKey, .object entries _ :: rest, _ =>
    .error (abandon (.object entries.reverse (notKey token)) rest)
  | .firstKey, _, _ | .nextKey, _, _ => value
  | .colon key, .object entries _ :: rest, .colon =>
    .ok (.value, .object entries (some key) :: rest)
  | .colon key, .object entries _ :: rest, _ =>
    .error (abandon (.broken (.all .expectedColon)) (.object entries (some key) :: rest))
  | .colon _, _, _ => value

/-- The node of a document at whose end something is still wanted. -/
def atEnd (wanted : Wanted) (around : List OpenNode) : Node :=
  match wanted, around with
  | .nothing root, _ => root
  | .value, .array items :: rest => abandon (.array items.reverse .cutAfterComma) rest
  | .value, _ => abandon (.broken (.all .endInValue)) around
  | .nextKey, .object entries _ :: rest =>
    abandon (.object entries.reverse .cutAfterComma) rest
  | .colon key, .object entries _ :: rest =>
    abandon (.broken (.all .endInObject)) (.object entries (some key) :: rest)
  | _, outer :: rest => abandon outer.cut rest
  | _, [] => .broken (.all .endInValue)

/-- The document of the tokens that are left. -/
def build (wanted : Wanted) (around : List OpenNode) : List Token → Document
  | [] => ⟨atEnd wanted around, false⟩
  | token :: rest =>
    match wanted with
    | .nothing root => ⟨root, true⟩
    | _ =>
      match step wanted around token with
      | .ok (wanted, around) => build wanted around rest
      | .error root => ⟨root, false⟩

/-- The document of a text. -/
def ofText (text : String) : Document := build .value [] (Token.ofText text)

end Document
end PlanFlow
