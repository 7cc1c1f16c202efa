import PlanFlow.Json.Decoder

/-!
# Timestamps

A timestamp is a date and a time of day in UTC.  It is read from the internet date and time format
of RFC 3339, somewhat relaxed: blanks may stand around the parts, the year may have a sign and then
any number of digits, a blank may separate date and time, and `UTC` may stand for the offset.  It is
written without blanks, with `Z` for the offset and as many groups of three fraction digits as are
needed.
-/

namespace PlanFlow

/-- A day of the Gregorian calendar. -/
structure Date where
  year : Int
  month : Nat
  day : Nat
  deriving DecidableEq, Inhabited

namespace Date

/-- Every fourth year is a leap year, but of the full centuries only every fourth. -/
def isLeapYear (year : Int) : Bool := year % 4 == 0 && (year % 100 != 0 || year % 400 == 0)

/-- The number of days of a month. -/
def daysIn (year : Int) (month : Nat) : Nat :=
  match month with
  | 2 => if isLeapYear year then 29 else 28
  | 4 | 6 | 9 | 11 => 30
  | _ => 31

/-- The first and the last year of the calendar. -/
def years : Int × Int := (-262143, 262142)

/-- Whether the calendar has the day. -/
def isValid (d : Date) : Bool :=
  decide (years.1 ≤ d.year ∧ d.year ≤ years.2 ∧ 1 ≤ d.month ∧ d.month ≤ 12 ∧ 1 ≤ d.day ∧
    d.day ≤ daysIn d.year d.month)

/-- The day after a day. -/
def next (d : Date) : Date :=
  if d.day < daysIn d.year d.month then { d with day := d.day + 1 }
  else if d.month < 12 then ⟨d.year, d.month + 1, 1⟩
  else ⟨d.year + 1, 1, 1⟩

/-- The day before a day. -/
def previous (d : Date) : Date :=
  if 1 < d.day then { d with day := d.day - 1 }
  else if 1 < d.month then ⟨d.year, d.month - 1, daysIn d.year (d.month - 1)⟩
  else ⟨d.year - 1, 12, 31⟩

end Date

/-- A moment in UTC.  Nanoseconds beyond those of a second belong to a leap second, which follows
the second. -/
structure Timestamp where
  date : Date
  second : Nat
  nanosecond : Nat
  deriving DecidableEq, Inhabited

/-- Why a text is no timestamp. -/
inductive TimeFault where
  /-- A part is too large or too small, or the calendar does not have the day. -/
  | outOfRange
  /-- The offset leads beyond the calendar. -/
  | impossible
  | invalid
  | endOfText
  | trailingText
  deriving DecidableEq, Inhabited

namespace TimeFault

/-- The wording of the fault. -/
def message : TimeFault → String
  | .outOfRange => "input is out of range"
  | .impossible => "no possible date and time matching input"
  | .invalid => "input contains invalid characters"
  | .endOfText => "premature end of input"
  | .trailingText => "trailing input"

end TimeFault

namespace Timestamp

/-- A reader of the start of a text, which leaves the rest. -/
abbrev Scan := StateT (List Char) (Except TimeFault)

namespace Scan

/-- Gives up. -/
def fail {α : Type} (fault : TimeFault) : Scan α := throw fault

/-- Skips blanks. -/
def blanks : Scan Unit := modify Text.trimLeft

/-- Reads a character. -/
def literal (c : Char) : Scan Unit := do
  match ← get with
  | [] => fail .endOfText
  | x :: rest => if x = c then set rest else fail .invalid

/-- The number of decimal digits. -/
def value (digits : List Char) : Nat := digits.foldl (fun n c => n * 10 + (c.toNat - 48)) 0

/-- Reads the digits at the start of the text, of which at most `width` are taken, and at least one
has to be there. -/
def digits (width : Option Nat) : Scan (List Char) := do
  let text ← get
  let run := text.takeWhile Char.isDigit
  let taken := match width with
    | some w => run.take w
    | none => run
  if text.isEmpty then fail .endOfText
  else if taken.isEmpty then fail .invalid
  else do
    set (text.drop taken.length)
    pure taken

/-- Reads a number of at most two digits that has to lie between two bounds, after blanks. -/
def part (least greatest : Nat) : Scan Nat := do
  blanks
  let n := value (← digits (some 2))
  if least ≤ n ∧ n ≤ greatest then pure n else fail .outOfRange

/-- The largest number of a year that can be read. -/
def maxYear : Nat := Nat.pow 2 31 - 1

/-- Reads a year: four digits at most, or a sign and any number of digits. -/
def year : Scan Int := do
  blanks
  match ← get with
  | '-' :: rest => do
    set rest
    let n := value (← digits none)
    if n ≤ maxYear + 1 then pure (-n) else fail .outOfRange
  | '+' :: rest => do
    set rest
    let n := value (← digits none)
    if n ≤ maxYear then pure n else fail .outOfRange
  | _ => do pure (value (← digits (some 4)))

/-- Reads the fraction of a second in nanoseconds, if there is one; digits beyond the ninth are
skipped. -/
def fraction : Scan Nat := do
  match ← get with
  | '.' :: rest => do
    set rest
    let taken ← digits (some 9)
    modify fun text => text.dropWhile Char.isDigit
    pure (value taken * Nat.pow 10 (9 - taken.length))
  | _ => pure 0

/-- Reads the mark between date and time. -/
def separator : Scan Unit := do
  match ← get with
  | [] => fail .endOfText
  | c :: rest => if c = 't' ∨ c = 'T' ∨ c = ' ' then set rest else fail .invalid

/-- Reads two digits, the first of which is at most `greatest`. -/
def twoDigits : Scan (Nat × Nat) := do
  match ← get with
  | a :: b :: rest =>
    if a.isDigit ∧ b.isDigit then do
      set rest
      pure (a.toNat - 48, b.toNat - 48)
    else fail .invalid
  | [a] => if a.toNat < 128 then fail .endOfText else fail .invalid
  | [] => fail .endOfText

/-- Reads the hours and minutes of an offset, in seconds. -/
def offsetLength : Scan Nat := do
  let (h1, h2) ← twoDigits
  modify fun text => text.dropWhile fun c => c == ':' || Text.isBlank c
  let (m1, m2) ← twoDigits
  if m1 < 6 then pure ((h1 * 10 + h2) * 3600 + (m1 * 10 + m2) * 60) else fail .outOfRange

/-- Whether a text starts with `UTC`, in capitals or not. -/
def startsWithUtc (text : List Char) : Bool :=
  (text.take 3).map Char.toUpper == ['U', 'T', 'C']

/-- Reads the offset from UTC in seconds. -/
def offset : Scan Int := do
  blanks
  let text ← get
  if startsWithUtc text then do
    set (text.drop 3)
    pure 0
  else
    match text with
    | [] => fail .endOfText
    | c :: rest => do
      set rest
      if c = 'Z' ∨ c = 'z' then pure 0
      else if c = '+' then do pure (← offsetLength)
      else if c = '-' ∨ c = '\u2212' then do pure (-(← offsetLength))
      else fail .invalid

/-- A date, a time of day and an offset as they are written. -/
structure Written where
  date : Date
  hour : Nat
  minute : Nat
  second : Nat
  nanosecond : Nat
  offset : Int

/-- Reads a whole timestamp. -/
def written : Scan Written := do
  let year ← year
  blanks
  literal '-'
  let month ← part 1 12
  blanks
  literal '-'
  let day ← part 1 31
  separator
  let hour ← part 0 23
  blanks
  literal ':'
  let minute ← part 0 59
  blanks
  literal ':'
  let second ← part 0 60
  let nanosecond ← fraction
  blanks
  pure ⟨⟨year, month, day⟩, hour, minute, second, nanosecond, ← offset⟩

end Scan

/-- The number of seconds of a day. -/
def daySeconds : Nat := 86400

/-- Moves a time of day on a date back by an offset of less than a day. -/
def moveBack (date : Date) (second : Int) (nanosecond : Nat) : Timestamp :=
  if second < 0 then ⟨date.previous, (second + daySeconds).toNat, nanosecond⟩
  else if second < daySeconds then ⟨date, second.toNat, nanosecond⟩
  else ⟨date.next, (second - daySeconds).toNat, nanosecond⟩

/-- The moment of what is written.  The sixtieth second is the leap second after the one before. -/
def ofWritten (w : Scan.Written) : Except TimeFault Timestamp :=
  let leap := w.second = 60
  let second := w.hour * 3600 + w.minute * 60 + (if leap then 59 else w.second)
  let nanosecond := w.nanosecond + (if leap then 1000000000 else 0)
  if w.date.isValid ∧ w.offset.natAbs < daySeconds then
    let t := moveBack w.date (second - w.offset) nanosecond
    if t.date.isValid then .ok t else .error .impossible
  else .error .outOfRange

/-- Reads a timestamp. -/
def ofText (s : String) : Except TimeFault Timestamp := do
  let (w, rest) ← Scan.written.run s.toList
  if rest.all Text.isBlank then ofWritten w else .error .trailingText

/-- A number with zeros in front up to a width. -/
def padded (width n : Nat) : String :=
  let digits := toString n
  String.ofList (List.replicate (width - digits.length) '0') ++ digits

/-- A year; those that do not have four digits get a sign. -/
def yearText (year : Int) : String :=
  if 0 ≤ year ∧ year ≤ 9999 then padded 4 year.toNat
  else (if year < 0 then "-" else "+") ++ padded 4 year.natAbs

/-- The fraction of a second, in as few groups of three digits as are needed. -/
def fractionText (nanosecond : Nat) : String :=
  if nanosecond = 0 then ""
  else if nanosecond % 1000000 = 0 then "." ++ padded 3 (nanosecond / 1000000)
  else if nanosecond % 1000 = 0 then "." ++ padded 6 (nanosecond / 1000)
  else "." ++ padded 9 nanosecond

/-- The text of a timestamp. -/
def text (t : Timestamp) : String :=
  let leap := 1000000000 ≤ t.nanosecond
  yearText t.date.year ++ "-" ++ padded 2 t.date.month ++ "-" ++ padded 2 t.date.day ++ "T" ++
    padded 2 (t.second / 3600) ++ ":" ++ padded 2 (t.second / 60 % 60) ++ ":" ++
    padded 2 (t.second % 60 + (if leap then 1 else 0)) ++
    fractionText (t.nanosecond % 1000000000) ++ "Z"

/-- Reads a timestamp of a document. -/
def decode : Decoder Timestamp := fun _ node =>
  match node with
  | .string s => do
    match ofText (← s) with
    | .ok t => .ok t
    | .error f => .error (.other f.message)
  | _ => .error (node.mismatch "an RFC 3339 formatted date and time string")

/-- Writes a timestamp. -/
def encode (t : Timestamp) : Value := .string t.text

end Timestamp
end PlanFlow
