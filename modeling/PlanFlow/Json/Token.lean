import PlanFlow.Json.Fault

/-!
# Tokens of JSON text

The text of a document is cut into tokens by a machine that looks at one character at a time.  The
tokens of a text that breaks off end with one that says why.

A part of a document is either kept or ignored, and which of the two is not known when its tokens
are read.  Some faults are met only by a reader who keeps the part: a number out of range, or a
surrogate that stands alone.  Such a token carries the fault in place of its content.  Where text
breaks off, the fault can be named differently for the two readers, and differently again for one
who wants a plain name; a `Break` holds all three.
-/

namespace PlanFlow

/-- Why text breaks off, for a reader who keeps the part, one who ignores it, and one who wants a
plain name there. -/
structure Break where
  kept : Fault
  ignored : Fault
  named : Fault
  deriving DecidableEq, Inhabited

namespace Break

/-- Text that breaks off in the same way for every reader. -/
def all (f : Fault) : Break := ⟨f, f, f⟩

end Break

/-- A token.  Nothing follows one of the last two kinds. -/
inductive Token where
  | openObject
  | closeObject
  | openArray
  | closeArray
  | comma
  | colon
  | null
  | bool (b : Bool)
  | number (n : Except Fault Number)
  | string (s : Except Fault String)
  | brokenString (b : Break)
  | broken (b : Break)

/-- What the machine is in the middle of inside a string. -/
inductive Escape where
  /-- Nothing. -/
  | none
  /-- A backslash has been read. -/
  | backslash
  /-- Some of four hexadecimal digits have been read, possibly after a leading surrogate. -/
  | hex (count value : Nat) (lead : Option Nat)
  /-- A leading surrogate has been read. -/
  | surrogate (lead : Nat)
  /-- A leading surrogate and a backslash have been read. -/
  | surrogateBackslash (lead : Nat)

/-- A string of which a part has been read: its characters from the last to the first, and the first
fault that a reader who keeps it meets. -/
structure OpenString where
  text : List Char
  fault : Option Fault
  escape : Escape

/-- The part of a number literal that has been read last. -/
inductive NumberPart where
  | sign
  | zero
  | whole
  | point
  | fraction
  | exponent
  | exponentSign
  | exponentDigits
  deriving DecidableEq

/-- A number literal of which a part has been read, its digits from the last to the first. -/
structure OpenNumber where
  part : NumberPart
  negative : Bool
  whole : List Nat
  fraction : List Nat
  exponentNegative : Bool
  exponent : List Nat

namespace OpenString

/-- The string after its opening quotation mark. -/
def start : OpenString := ⟨[], none, .none⟩

/-- The string with one more character. -/
def push (s : OpenString) (c : Char) : OpenString := ⟨c :: s.text, s.fault, .none⟩

/-- The string with a fault that only a reader who keeps it meets. -/
def spoil (s : OpenString) (f : Fault) : OpenString := ⟨s.text, s.fault.or (some f), .none⟩

/-- The token of a string that ends with its quotation mark. -/
def finish (s : OpenString) : Token :=
  .string (match s.fault with
    | some f => .error f
    | none => .ok (String.ofList s.text.reverse))

/-- The token of a string that breaks off. -/
def stop (s : OpenString) (f : Fault) : Token :=
  .brokenString ⟨s.fault.getD f, f, s.fault.getD f⟩

/-- The string after a whole hexadecimal escape. -/
def takeCode (s : OpenString) (value : Nat) : Option Nat → OpenString
  | some lead =>
    if 0xDC00 ≤ value ∧ value ≤ 0xDFFF then
      s.push (Char.ofNat (0x10000 + (lead - 0xD800) * 0x400 + (value - 0xDC00)))
    else s.spoil .loneSurrogate
  | none =>
    if 0xDC00 ≤ value ∧ value ≤ 0xDFFF then s.spoil .loneSurrogate
    else if 0xD800 ≤ value ∧ value ≤ 0xDBFF then { s with escape := .surrogate value }
    else s.push (Char.ofNat value)

end OpenString

namespace OpenNumber

/-- The token of a number literal that ends. -/
def finish (n : OpenNumber) : Token :=
  let literal : NumberLiteral := {
    negative := n.negative
    whole := n.whole.reverse
    fraction := if n.fraction.isEmpty then none else some n.fraction.reverse
    exponent := if n.exponent.isEmpty then none else some (n.exponentNegative, n.exponent.reverse) }
  .number (match literal.value with
    | some number => .ok number
    | none => .error .numberOutOfRange)

/-- The token of a number literal at which the text ends. -/
def atEnd (n : OpenNumber) : Token :=
  match n.part with
  | .sign | .point | .exponent | .exponentSign =>
    .broken ⟨.endInValue, .invalidNumber, .expectedValue⟩
  | .zero | .whole | .fraction | .exponentDigits => n.finish

/-- The token of a number literal that breaks off before some character. -/
def invalid : Token := .broken ⟨.invalidNumber, .invalidNumber, .expectedValue⟩

end OpenNumber

/-- What the machine is in the middle of. -/
inductive Lexing where
  | blank
  | word (rest : List Char) (token : Token)
  | string (s : OpenString)
  | number (n : OpenNumber)

namespace Lexing

/-- What the machine does with a character: the tokens that it completes, and what it is in the
middle of then, unless the text breaks off. -/
structure Move where
  tokens : List Token
  next : Option Lexing

namespace Move

/-- The machine goes on without having completed a token. -/
def go (state : Lexing) : Move := ⟨[], some state⟩

/-- The machine has completed a token. -/
def emit (token : Token) : Move := ⟨[token], some .blank⟩

/-- The text breaks off. -/
def stop (token : Token) : Move := ⟨[token], none⟩

/-- The same move with a token completed before it. -/
def after (token : Token) (move : Move) : Move := ⟨token :: move.tokens, move.next⟩

end Move

/-- The blanks between tokens. -/
def isBlank (c : Char) : Bool := c == ' ' || c == '\n' || c == '\t' || c == '\r'

/-- The value of a decimal digit. -/
def digit? (c : Char) : Option Nat :=
  if '0' ≤ c ∧ c ≤ '9' then some (c.toNat - '0'.toNat) else none

/-- The value of a hexadecimal digit. -/
def hexDigit? (c : Char) : Option Nat :=
  if '0' ≤ c ∧ c ≤ '9' then some (c.toNat - '0'.toNat)
  else if 'a' ≤ c ∧ c ≤ 'f' then some (c.toNat - 'a'.toNat + 10)
  else if 'A' ≤ c ∧ c ≤ 'F' then some (c.toNat - 'A'.toNat + 10)
  else none

/-- A character between tokens. -/
def stepBlank (c : Char) : Move :=
  if isBlank c then .go .blank
  else if c = '\x7b' then .emit .openObject
  else if c = '\x7d' then .emit .closeObject
  else if c = '[' then .emit .openArray
  else if c = ']' then .emit .closeArray
  else if c = ',' then .emit .comma
  else if c = ':' then .emit .colon
  else if c = '"' then .go (.string .start)
  else if c = 'n' then .go (.word ['u', 'l', 'l'] .null)
  else if c = 't' then .go (.word ['r', 'u', 'e'] (.bool true))
  else if c = 'f' then .go (.word ['a', 'l', 's', 'e'] (.bool false))
  else if c = '-' then .go (.number ⟨.sign, true, [], [], false, []⟩)
  else match digit? c with
    | some d => .go (.number ⟨if d = 0 then .zero else .whole, false, [d], [], false, []⟩)
    | none => .stop (.broken (.all .expectedValue))

/-- A character of a word of which `rest` is still wanted. -/
def stepWord (rest : List Char) (token : Token) (c : Char) : Move :=
  match rest with
  | [] => (stepBlank c).after token
  | wanted :: rest =>
    if c ≠ wanted then .stop (.broken ⟨.expectedWord, .expectedWord, .expectedValue⟩)
    else if rest.isEmpty then .emit token
    else .go (.word rest token)

/-- A character inside a number literal. -/
def stepNumber (n : OpenNumber) (c : Char) : Move :=
  let exponentMark := c == 'e' || c == 'E'
  match n.part, digit? c with
  | .sign, some d =>
    .go (.number { n with part := if d = 0 then .zero else .whole, whole := [d] })
  | .zero, some _ => .stop OpenNumber.invalid
  | .whole, some d => .go (.number { n with whole := d :: n.whole })
  | .point, some d | .fraction, some d =>
    .go (.number { n with part := .fraction, fraction := d :: n.fraction })
  | .exponent, some d | .exponentSign, some d | .exponentDigits, some d =>
    .go (.number { n with part := .exponentDigits, exponent := d :: n.exponent })
  | .zero, none | .whole, none =>
    if c = '.' then .go (.number { n with part := .point })
    else if exponentMark then .go (.number { n with part := .exponent })
    else (stepBlank c).after n.finish
  | .fraction, none =>
    if exponentMark then .go (.number { n with part := .exponent })
    else (stepBlank c).after n.finish
  | .exponentDigits, none => (stepBlank c).after n.finish
  | .exponent, none =>
    if c = '+' then .go (.number { n with part := .exponentSign })
    else if c = '-' then .go (.number { n with part := .exponentSign, exponentNegative := true })
    else .stop OpenNumber.invalid
  | .sign, none | .point, none | .exponentSign, none => .stop OpenNumber.invalid

/-- A character inside a string, outside escapes. -/
def stepPlain (s : OpenString) (c : Char) : Move :=
  if c = '"' then .emit s.finish
  else if c = '\\' then .go (.string { s with escape := .backslash })
  else if c.toNat < 32 then .stop (s.stop .controlCharacter)
  else .go (.string (s.push c))

/-- A character after a backslash. -/
def stepBackslash (s : OpenString) (c : Char) : Move :=
  if c = '"' ∨ c = '\\' ∨ c = '/' then .go (.string (s.push c))
  else if c = 'b' then .go (.string (s.push '\x08'))
  else if c = 'f' then .go (.string (s.push '\x0c'))
  else if c = 'n' then .go (.string (s.push '\n'))
  else if c = 'r' then .go (.string (s.push '\r'))
  else if c = 't' then .go (.string (s.push '\t'))
  else if c = 'u' then .go (.string { s with escape := .hex 0 0 none })
  else .stop (s.stop .invalidEscape)

/-- A character where a hexadecimal digit is wanted, with the characters after it: fewer than four
bytes up to the end count as the end, not as wrong digits. -/
def stepHex (s : OpenString) (count value : Nat) (lead : Option Nat) (c : Char)
    (rest : List Char) : Move :=
  match hexDigit? c with
  | some d =>
    if count = 3 then .go (.string (s.takeCode (value * 16 + d) lead))
    else .go (.string { s with escape := .hex (count + 1) (value * 16 + d) lead })
  | none =>
    let bytes := rest.foldl (fun n c => n + c.utf8Size) (count + c.utf8Size)
    .stop (s.stop (if bytes < 4 then .endInString else .invalidEscape))

/-- A character inside a string. -/
def stepString (s : OpenString) (c : Char) (rest : List Char) : Move :=
  match s.escape with
  | .none => stepPlain s c
  | .backslash => stepBackslash s c
  | .hex count value lead => stepHex s count value lead c rest
  | .surrogate lead =>
    if c = '\\' then .go (.string { s with escape := .surrogateBackslash lead })
    else stepPlain (s.spoil .endOfHexEscape) c
  | .surrogateBackslash lead =>
    if c = 'u' then .go (.string { s with escape := .hex 0 0 (some lead) })
    else stepBackslash (s.spoil .endOfHexEscape) c

/-- A character, with the characters after it. -/
def step (state : Lexing) (c : Char) (rest : List Char) : Move :=
  match state with
  | .blank => stepBlank c
  | .word wanted token => stepWord wanted token c
  | .string s => stepString s c rest
  | .number n => stepNumber n c

/-- The tokens that the end of the text completes. -/
def atEnd : Lexing → List Token
  | .blank => []
  | .word _ _ => [.broken ⟨.endInValue, .endInValue, .expectedValue⟩]
  | .string s => [s.stop .endInString]
  | .number n => [n.atEnd]

end Lexing

namespace Token

/-- The tokens of a text, starting in the middle of something. -/
def scan : Lexing → List Char → List Token
  | state, [] => state.atEnd
  | state, c :: rest =>
    let move := state.step c rest
    match move.next with
    | none => move.tokens
    | some next => move.tokens ++ scan next rest

/-- The tokens of a text. -/
def ofText (text : String) : List Token := scan .blank text.toList

end Token
end PlanFlow
