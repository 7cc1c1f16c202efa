import PlanFlow.Json.Value
import PlanFlow.Number.Shortest

/-!
# Writing JSON

A value is written compactly, without blanks, or indented by two blanks a level.  Entries are
written in the order in which the value holds them.  In a text the quotation mark, the backslash and
the control characters are escaped, and nothing else.
-/

namespace PlanFlow

/-- The text of a number. -/
def Number.text : Number → String
  | .int n => toString n
  | .float x => x.text

namespace Value

/-- The hexadecimal digit of a number below sixteen. -/
def hexDigit (n : Nat) : Char := if n < 10 then Char.ofNat (48 + n) else Char.ofNat (87 + n)

/-- A character as it is written in a text. -/
def escapeChar (c : Char) : String :=
  if c = '"' then "\\\""
  else if c = '\\' then "\\\\"
  else if c = '\n' then "\\n"
  else if c = '\t' then "\\t"
  else if c = '\r' then "\\r"
  else if c.toNat = 8 then "\\b"
  else if c.toNat = 12 then "\\f"
  else if c.toNat < 32 then
    "\\u00" ++ String.ofList [hexDigit (c.toNat / 16), hexDigit (c.toNat % 16)]
  else c.toString

/-- A text in quotation marks. -/
def quote (s : String) : String := "\"" ++ String.join (s.toList.map escapeChar) ++ "\""

mutual

/-- The value without blanks. -/
def compact : Value → String
  | .null => "null"
  | .bool b => if b then "true" else "false"
  | .number n => n.text
  | .string s => quote s
  | .array items => "[" ++ ",".intercalate (compactItems items) ++ "]"
  | .object entries => "\x7b" ++ ",".intercalate (compactEntries entries) ++ "\x7d"

/-- The items of an array without blanks. -/
def compactItems : List Value → List String
  | [] => []
  | v :: rest => compact v :: compactItems rest

/-- The entries of an object without blanks. -/
def compactEntries : List (String × Value) → List String
  | [] => []
  | (k, v) :: rest => (quote k ++ ":" ++ compact v) :: compactEntries rest

end

/-- The start of a line at an indentation level. -/
def newline (level : Nat) : String := "\n" ++ String.ofList (List.replicate (2 * level) ' ')

/-- Lines between brackets, one level deeper than the brackets; empty brackets hold no line. -/
def bracketed (level : Nat) (opening closing : String) : List String → String
  | [] => opening ++ closing
  | lines =>
    opening ++ newline (level + 1) ++ ("," ++ newline (level + 1)).intercalate lines ++
      newline level ++ closing

mutual

/-- The value with one item or entry a line, at an indentation level. -/
def indented : Nat → Value → String
  | _, .null => "null"
  | _, .bool b => if b then "true" else "false"
  | _, .number n => n.text
  | _, .string s => quote s
  | level, .array items => bracketed level "[" "]" (indentedItems (level + 1) items)
  | level, .object entries =>
    bracketed level "\x7b" "\x7d" (indentedEntries (level + 1) entries)

/-- The items of an array, each at an indentation level. -/
def indentedItems : Nat → List Value → List String
  | _, [] => []
  | level, v :: rest => indented level v :: indentedItems level rest

/-- The entries of an object, each at an indentation level. -/
def indentedEntries : Nat → List (String × Value) → List String
  | _, [] => []
  | level, (k, v) :: rest =>
    (quote k ++ ": " ++ indented level v) :: indentedEntries level rest

end

/-- The value over several lines. -/
def pretty (v : Value) : String := indented 0 v

end Value
end PlanFlow
