import PlanFlow.CommandLine.Report

/-!
# The program

Reads the files of a command, runs it, writes the outcome to a file if one is named, and shows the
report.
-/

namespace PlanFlow
namespace Program

/-- The fault of a file that cannot be read or written. -/
def faultOf : IO.Error → FileFault
  | .noFileOrDirectory .. => .noSuchFile
  | error => .other (toString error)

/-- Reads a file. -/
def readFile (path : String) : IO (Except FileFault String) := do
  try
    let text ← IO.FS.readFile path
    return .ok text
  catch error => return .error (faultOf error)

/-- Writes a file. -/
def writeFile (path text : String) : IO (Option FileFault) := do
  try
    IO.FS.writeFile path text
    return none
  catch error => return some (faultOf error)

/-- The files that a command reads. -/
def inputs : Command → List String
  | .compile arguments => arguments.settings.toList ++ [arguments.catalog, arguments.input]
  | .validate steps => [steps]

/-- The files of some paths, read beforehand. -/
def readerOf (files : List (String × Except FileFault String)) : FileReader := fun path =>
  (Entries.find? path files).getD (.error .noSuchFile)

/-- Runs a command, and writes the outcome of a compilation if it is to be kept. -/
def report (command : Command) (read : FileReader) : IO Report :=
  match command with
  | .validate path => return CommandLine.validate path read
  | .compile arguments =>
    match CommandLine.compile arguments read with
    | .error report => return report
    | .ok outcome => do
      match arguments.output with
      | none => return CommandLine.compileReport arguments outcome
      | some path =>
        match ← writeFile path outcome.encode.pretty with
        | none => return CommandLine.compileReport arguments outcome
        | some fault => return CommandLine.writeFailed path fault

/-- Reads the files of a command and runs it. -/
def run (command : Command) : IO UInt32 := do
  let files ← (inputs command).mapM fun path => do return (path, ← readFile path)
  let report ← report command (readerOf files)
  IO.print report.output
  IO.eprint report.errors
  return report.exitCode.toUInt32

end Program
end PlanFlow

/-- Runs the command that the arguments give. -/
def main (arguments : List String) : IO UInt32 :=
  match PlanFlow.CommandLine.parse arguments with
  | some command => PlanFlow.Program.run command
  | none => do
    IO.eprint PlanFlow.CommandLine.usage
    return 2
