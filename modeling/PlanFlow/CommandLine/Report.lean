import PlanFlow.CommandLine.Arguments
import PlanFlow.Compiler
import PlanFlow.Files.Document
import PlanFlow.Graph.PlanText

/-!
# Reports of the command line

A command reads its files, does its work and ends with a report: what goes to the two outputs, and
the exit code.  Code 1 stands for a file that cannot be used, code 2 for an input that was
understood and refused.  A compilation may leave a text that is still to be written to a file.
-/

namespace PlanFlow

/-- How a command ends. -/
structure Report where
  exitCode : Nat
  output : String
  errors : String
  deriving DecidableEq, Inhabited

namespace Report

/-- The report of a command that gave up. -/
def failed (message : String) : Report := ⟨1, "", "\nError: " ++ message ++ "\n"⟩

end Report

namespace CommandLine

/-- Reads a file, or reports why not. -/
def readFile (read : FileReader) (path : String) : Except Report String :=
  (read path).mapError fun fault => .failed ("Failed to read '" ++ path ++ "': " ++ fault.message)

/-- The settings of a compilation. -/
def readSettings (read : FileReader) : Option String → Except Report Configuration
  | none => .ok default
  | some path =>
    (Configuration.decode.ofFile read path).mapError fun fault =>
      .failed ("Failed to load config: " ++ fault.message)

/-- The plan of a text. -/
def readPlan (isDraft : Bool) (text : String) : Except Report Plan :=
  if isDraft then do
    let draft ← (Draft.decode.ofText text).mapError fun fault =>
      .failed ("Failed to parse technical workflow JSON: " ++ fault.message)
    draft.toPlan.mapError fun fault => .failed ("Failed to normalize workflow: " ++ fault.message)
  else (Compiler.readPlan text).mapError fun error => .failed error.message

/-- Compiles the input of a command. -/
def compile (arguments : CompileArguments) (read : FileReader) : Except Report Outcome := do
  let configuration ← readSettings read arguments.settings
  let catalog ← (Catalog.decode.ofFile read arguments.catalog).mapError fun fault =>
    .failed ("Failed to load catalog: " ++ fault.message)
  let text ← readFile read arguments.input
  let p ← readPlan arguments.isDraft text
  .ok (Compiler.compile ⟨catalog, configuration.compiler, .standard⟩ p)

/-- The execution plan of a successful compilation, if it is to be shown. -/
def planText (arguments : CompileArguments) (outcome : Outcome) : String :=
  match outcome.workflow? with
  | some w =>
    if arguments.showPlan then "\n" ++ w.schedule.text w.profile.agentName w.steps ++ "\n" else ""
  | none => ""

/-- The report of a compilation, whose outcome was written to a file or is to be shown. -/
def compileReport (arguments : CompileArguments) (outcome : Outcome) : Report where
  exitCode := if outcome.isSuccess then 0 else 2
  output := if arguments.output.isSome then "" else outcome.encode.pretty ++ "\n"
  errors := planText arguments outcome

/-- The report of a compilation whose outcome cannot be written to a file. -/
def writeFailed (path : String) (fault : FileFault) : Report :=
  .failed ("Failed to write '" ++ path ++ "': " ++ fault.message)

/-- The lines of a list of findings, each with its code. -/
def findingLines (level : String) (findings : List (String × String)) : String :=
  String.join (findings.map fun (code, message) => level ++ "[" ++ code ++ "]: " ++ message ++ "\n")

/-- The report of the validation of a list of steps. -/
def validationReport (steps : List Step) : Report :=
  match Validation.ofSteps default steps with
  | .valid schedule warnings =>
    { exitCode := 0
      output := schedule.text "step list" steps ++ "\n" ++
        findingLines "warning" (warnings.map fun w => (w.code, w.message))
      errors := "" }
  | .invalid errors =>
    { exitCode := 2
      output := ""
      errors := findingLines "error" (errors.map fun e => (e.code, e.message)) }

/-- Validates the list of steps of a file. -/
def validate (path : String) (read : FileReader) : Report :=
  match readFile read path with
  | .error report => report
  | .ok text =>
    match Step.decodeList.ofText text with
    | .error fault => .failed ("Failed to parse step list JSON: " ++ fault.message)
    | .ok steps => validationReport steps

/-- Runs a command on a folder. -/
def run (command : Command) (folder : Folder) : Report × Folder :=
  match command with
  | .validate path => (validate path folder.read, folder)
  | .compile arguments =>
    match compile arguments folder.read with
    | .error report => (report, folder)
    | .ok outcome =>
      match arguments.output with
      | none => (compileReport arguments outcome, folder)
      | some path =>
        match folder.write path outcome.encode.pretty with
        | .ok folder => (compileReport arguments outcome, folder)
        | .error fault => (writeFailed path fault, folder)

end CommandLine
end PlanFlow
