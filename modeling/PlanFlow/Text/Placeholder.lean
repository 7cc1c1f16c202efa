import PlanFlow.Text.Classes

/-!
# Placeholders of runtime input

A placeholder of runtime input is two opening braces, the word `input`, a point, a name of ASCII
letters, digits and underscores, and two closing braces, with white space allowed inside the braces.
A text is searched from left to right, and a placeholder that was found is not searched again.
-/

namespace PlanFlow
namespace Text

/-- The characters of the name of an input. -/
def isNameChar (c : Char) : Bool :=
  ('a' ≤ c && c ≤ 'z') || ('A' ≤ c && c ≤ 'Z') || ('0' ≤ c && c ≤ '9') || c == '_'

/-- The rest of a text after some characters with which it starts. -/
def after? : List Char → List Char → Option (List Char)
  | [], s => some s
  | _ :: _, [] => none
  | c :: cs, d :: ds => if c = d then after? cs ds else none

/-- The word in front of the name of an input. -/
def inputWord : List Char := ['i', 'n', 'p', 'u', 't', '.']

/-- The name in the placeholder with which a text starts, and the rest of the text. -/
def placeholder? (s : List Char) : Option (List Char × List Char) := do
  let s ← after? ['\x7b', '\x7b'] s
  let s ← after? inputWord (s.dropWhile isBlank)
  let name := s.takeWhile isNameChar
  let rest ← after? ['\x7d', '\x7d'] ((s.dropWhile isNameChar).dropWhile isBlank)
  if name.isEmpty then none else some (name, rest)

/-- The names in the placeholders of a text of which so many characters belong to a placeholder that
was found already. -/
def inputNamesFrom : Nat → List Char → List String
  | _, [] => []
  | skip + 1, _ :: rest => inputNamesFrom skip rest
  | 0, c :: rest =>
    match placeholder? (c :: rest) with
    | some (name, after) =>
      String.ofList name :: inputNamesFrom (rest.length - after.length) rest
    | none => inputNamesFrom 0 rest

/-- The names in the placeholders of a text, in order. -/
def inputNames (s : String) : List String := inputNamesFrom 0 s.toList

end Text
end PlanFlow
