/-!
# Command line arguments

There are two commands.  `compile` compiles the plan or the draft of a file, and `validate` checks a
list of steps.  Options have a long name, and most of them a letter; letters may be joined, and a
value may follow its letter directly or after `=`.  After `--` nothing is an option.
-/

namespace PlanFlow

/-- The arguments of a compilation. -/
structure CompileArguments where
  input : String
  catalog : String
  /-- Whether the input is a draft. -/
  isDraft : Bool
  settings : Option String
  output : Option String
  /-- Whether the execution plan is shown. -/
  showPlan : Bool
  deriving DecidableEq, Inhabited

/-- What the program is asked to do. -/
inductive Command where
  | compile (arguments : CompileArguments)
  | validate (steps : String)
  deriving DecidableEq, Inhabited

namespace CommandLine

/-- A switch is there or not. -/
inductive Switch where
  | verbose
  | draft
  | plan
  deriving DecidableEq

/-- An option has a value. -/
inductive Setting where
  | catalog
  | settings
  | output
  deriving DecidableEq

/-- What an option is. -/
inductive OptionKind where
  | switch (s : Switch)
  | setting (s : Setting)
  deriving DecidableEq

/-- An argument that was understood. -/
inductive Argument where
  | switch (s : Switch)
  | setting (s : Setting) (value : String)
  | word (text : String)
  deriving DecidableEq

/-- The options with a long name. -/
def longOptions : List (String × OptionKind) :=
  [("verbose", .switch .verbose), ("technical", .switch .draft), ("plan", .switch .plan),
    ("catalog", .setting .catalog), ("config", .setting .settings), ("output", .setting .output)]

/-- The options with a letter. -/
def letterOptions : List (Char × OptionKind) :=
  [('v', .switch .verbose), ('t', .switch .draft), ('p', .switch .plan), ('c', .setting .catalog),
    ('o', .setting .output)]

/-- An argument whose first part is understood: the rest has to follow. -/
inductive Reading where
  | done (arguments : List Argument)
  /-- The value of a setting is the next argument. -/
  | awaits (before : List Argument) (s : Setting)

/-- Understands letters that stand together. -/
def readLetters : List Char → Option Reading
  | [] => some (.done [])
  | c :: rest =>
    match (letterOptions.find? fun entry => entry.1 == c).map Prod.snd with
    | none => none
    | some (.switch s) =>
      match readLetters rest with
      | some (.done arguments) => some (.done (.switch s :: arguments))
      | some (.awaits before t) => some (.awaits (.switch s :: before) t)
      | none => none
    | some (.setting s) =>
      match rest with
      | [] => some (.awaits [] s)
      | '=' :: value => some (.done [.setting s (String.ofList value)])
      | value => some (.done [.setting s (String.ofList value)])

/-- Understands the long name of an option, with a value if one follows directly. -/
def readLong (text : List Char) : Option Reading :=
  let name := String.ofList (text.takeWhile (· != '='))
  let value := (text.dropWhile (· != '=')).tail
  let hasValue := text.contains '='
  match (longOptions.find? fun entry => entry.1 == name).map Prod.snd with
  | none => none
  | some (.switch s) => if hasValue then none else some (.done [.switch s])
  | some (.setting s) =>
    some (if hasValue then .done [.setting s (String.ofList value)] else .awaits [] s)

/-- Whether an argument is an option or starts one. -/
def isOption (text : String) : Bool :=
  match text.toList with
  | '-' :: _ :: _ => true
  | _ => false

/-- Understands an option. -/
def readOption (text : String) : Option Reading :=
  match text.toList with
  | '-' :: '-' :: name => readLong name
  | '-' :: letters => readLetters letters
  | _ => none

/-- Understands a list of arguments, where a setting may wait for its value. -/
def readAll : Option Setting → List String → Option (List Argument)
  | none, [] => some []
  | some _, [] => none
  | some s, value :: rest =>
    if isOption value then none else (readAll none rest).map (.setting s value :: ·)
  | none, text :: rest =>
    if text = "--" then some (rest.map .word)
    else if isOption text then
      match readOption text with
      | some (.done arguments) => (readAll none rest).map (arguments ++ ·)
      | some (.awaits before s) => (readAll (some s) rest).map (before ++ ·)
      | none => none
    else (readAll none rest).map (.word text :: ·)

/-- The words among arguments. -/
def words (arguments : List Argument) : List String :=
  arguments.filterMap fun
    | .word text => some text
    | _ => none

/-- The values of a setting. -/
def valuesOf (s : Setting) (arguments : List Argument) : List String :=
  arguments.filterMap fun
    | .setting t value => if t = s then some value else none
    | _ => none

/-- Whether a switch is there. -/
def has (s : Switch) (arguments : List Argument) : Bool := arguments.contains (.switch s)

/-- A switch is there twice, or an option has two values. -/
def isRepeated (arguments : List Argument) : Bool :=
  [Switch.verbose, .draft, .plan].any (fun s => 1 < arguments.count (.switch s)) ||
    [Setting.catalog, .settings, .output].any fun s => 1 < (valuesOf s arguments).length

/-- Whether all options are of a kind. -/
def onlyVerbose (arguments : List Argument) : Bool :=
  arguments.all fun
    | .switch .verbose => true
    | .word _ => true
    | _ => false

/-- The command of a list of arguments, if they make sense. -/
def commandOf (arguments : List Argument) : Option Command :=
  if isRepeated arguments then none
  else
    match words arguments with
    | ["compile", input] =>
      match valuesOf .catalog arguments with
      | [catalog] => some (.compile {
          input := input
          catalog := catalog
          isDraft := has .draft arguments
          settings := (valuesOf .settings arguments).head?
          output := (valuesOf .output arguments).head?
          showPlan := has .plan arguments })
      | _ => none
    | ["validate", steps] => if onlyVerbose arguments then some (.validate steps) else none
    | _ => none

/-- The command that the arguments of the program give. -/
def parse (arguments : List String) : Option Command := (readAll none arguments).bind commandOf

/-- What is shown if the arguments make no sense. -/
def usage : String :=
  "Usage: planflow [--verbose] compile <PLAN> --catalog <CATALOG> [--technical] " ++
    "[--config <CONFIG>] [--output <OUTPUT>] [--plan]\n" ++
    "       planflow [--verbose] validate <STEPS>\n"

end CommandLine
end PlanFlow
