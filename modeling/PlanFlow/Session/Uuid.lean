import PlanFlow.Json.Decoder

/-!
# Identifiers of 128 bits

An identifier is read from its 32 hexadecimal digits, in capitals or not.  They are either all
together or in five groups joined by hyphens; the groups may stand in braces or after `urn:uuid:`.
It is written in small letters, in five groups.
-/

namespace PlanFlow

/-- An identifier of 128 bits. -/
structure Uuid where
  bits : BitVec 128
  deriving DecidableEq, Inhabited

/-- Why a text is no identifier. -/
inductive UuidFault where
  /-- A character is not allowed; its position is counted in bytes. -/
  | character (c : Char) (position : Nat)
  | length (found : Nat)
  | groupCount (found : Nat)
  | groupLength (group found : Nat)
  deriving DecidableEq, Inhabited

namespace Uuid

/-- The lengths of the groups. -/
def groupLengths : List Nat := [8, 4, 4, 4, 12]

end Uuid

namespace UuidFault

/-- The wording of the fault. -/
def message : UuidFault → String
  | .character c position =>
    "invalid character: found " ++ "`" ++ c.toString ++ "` at " ++ toString position
  | .length found =>
    "invalid length: expected length 32 for simple format, found " ++ toString found
  | .groupCount found => "invalid group count: expected 5, found " ++ toString found
  | .groupLength group found =>
    "invalid group length in group " ++ toString group ++ ": expected " ++
      toString ((Uuid.groupLengths[group]?).getD 0) ++ ", found " ++ toString found

end UuidFault

namespace Uuid

/-- The value of a hexadecimal digit. -/
def digit? (c : Char) : Option Nat :=
  if '0' ≤ c ∧ c ≤ '9' then some (c.toNat - 48)
  else if 'a' ≤ c ∧ c ≤ 'f' then some (c.toNat - 87)
  else if 'A' ≤ c ∧ c ≤ 'F' then some (c.toNat - 55)
  else none

/-- The identifier of 32 hexadecimal digits. -/
def ofDigits? (digits : List Char) : Option Uuid :=
  if digits.length = 32 then
    (digits.mapM digit?).map fun ds => ⟨.ofNat 128 (ds.foldl (fun n d => n * 16 + d) 0)⟩
  else none

/-- The pieces of a text between the hyphens. -/
def groups : List Char → List (List Char)
  | [] => [[]]
  | c :: rest =>
    if c = '-' then [] :: groups rest
    else match groups rest with
      | [] => [[c]]
      | group :: more => (c :: group) :: more

/-- The identifier of digits in five groups. -/
def ofGroups? (text : List Char) : Option Uuid :=
  let parts := groups text
  if parts.map List.length = groupLengths then ofDigits? parts.flatten else none

/-- What stands in front of an identifier that is a resource name. -/
def resourceName : List Char := "urn:uuid:".toList

/-- A text without the braces or the words around the groups, and how many characters were taken
away in front, unless it has neither. -/
def unwrap? (text : List Char) : Option (List Char × Nat) :=
  match text with
  | '\x7b' :: rest =>
    if rest.getLast? = some '\x7d' then some (rest.dropLast, 1) else none
  | _ =>
    if resourceName.isPrefixOf text then some (text.drop resourceName.length, resourceName.length)
    else none

/-- The identifier that a text stands for. -/
def parse? (text : List Char) : Option Uuid :=
  match unwrap? text with
  | some (inner, _) => ofGroups? inner
  | none => (ofDigits? text).or (ofGroups? text)

/-- The first character that is neither a digit nor a hyphen, with its position in bytes. -/
def badCharacter? (position : Nat) : List Char → Option (Char × Nat)
  | [] => none
  | c :: rest =>
    if c = '-' ∨ (digit? c).isSome then badCharacter? (position + c.utf8Size) rest
    else some (c, position)

/-- The first of four groups that does not have its length, with the length that it has. -/
def badGroup? (index : Nat) : List Nat → List (List Char) → Option (Nat × Nat)
  | expected :: others, group :: rest =>
    if group.length = expected then badGroup? (index + 1) others rest
    else some (index, group.length)
  | _, _ => none

/-- What is wrong with a text that stands for no identifier.  The last group is measured up to the
end of the whole text. -/
def faultOf (text : List Char) : UuidFault :=
  let (inner, before) := (unwrap? text).getD (text, 0)
  let parts := groups inner
  match badCharacter? before inner with
  | some (c, position) => .character c position
  | none =>
    if parts.length = 1 ∧ (unwrap? text).isNone then .length text.length
    else if parts.length ≠ groupLengths.length then .groupCount parts.length
    else
      match badGroup? 0 (groupLengths.take 4) parts with
      | some (group, found) => .groupLength group found
      | none => .groupLength 4 (text.length - 24)

/-- Reads an identifier. -/
def ofText (s : String) : Except UuidFault Uuid :=
  match parse? s.toList with
  | some id => .ok id
  | none => .error (faultOf s.toList)

/-- The 32 digits of an identifier. -/
def digits (id : Uuid) : List Char :=
  let ds := Nat.toDigits 16 id.bits.toNat
  List.replicate (32 - ds.length) '0' ++ ds

/-- The text of an identifier. -/
def text (id : Uuid) : String :=
  let ds := id.digits
  let group (start length : Nat) : String := String.ofList ((ds.drop start).take length)
  "-".intercalate [group 0 8, group 8 4, group 12 4, group 16 4, group 20 12]

/-- Reads an identifier of a document. -/
def decode : Decoder Uuid := fun _ node =>
  match node with
  | .string s => do
    match ofText (← s) with
    | .ok id => .ok id
    | .error f => .error (.other ("UUID parsing failed: " ++ f.message))
  | _ => .error (node.mismatch "a UUID string")

/-- Writes an identifier. -/
def encode (id : Uuid) : Value := .string id.text

end Uuid
end PlanFlow
