import PlanFlow.Catalog
import PlanFlow.Files.Folder
import PlanFlow.Workflow.Basic

/-!
# Documents in files

Settings, catalogs and compiled workflows are kept in files.  A document fails to load because its
file cannot be read, or because the text in it is no such document.
-/

namespace PlanFlow

/-- Why the document of a file cannot be loaded or saved. -/
inductive DocumentFault where
  | file (path : String) (fault : FileFault)
  | text (path : String) (fault : Fault)
  deriving DecidableEq, Inhabited

namespace DocumentFault

/-- The wording of the fault. -/
def message : DocumentFault → String
  | .file path fault => "Could not read '" ++ path ++ "': " ++ fault.message
  | .text path fault => "Could not parse '" ++ path ++ "': " ++ fault.message

end DocumentFault

/-- Reads the file of a path. -/
abbrev FileReader := String → Except FileFault String

namespace Decoder

variable {α : Type}

/-- Loads the document of a file. -/
def ofFile (decode : Decoder α) (read : FileReader) (path : String) : Except DocumentFault α :=
  match read path with
  | .error fault => .error (.file path fault)
  | .ok text => (ofText decode text).mapError (.text path)

end Decoder

namespace Workflow

/-- The text of the file that a workflow is saved to. -/
def fileText (w : Workflow) : String := w.encode.pretty

/-- Saves a workflow to a file of a folder. -/
def save (w : Workflow) (f : Folder) (path : String) : Except DocumentFault Folder :=
  (f.write path w.fileText).mapError (.file path)

end Workflow
end PlanFlow
