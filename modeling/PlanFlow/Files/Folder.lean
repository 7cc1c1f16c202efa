import PlanFlow.Json.Entries

/-!
# Folders

A folder holds files by their paths.  A path is a list of names joined by slashes, in which empty
names and single points do not count.  A name in front of a slash stands for a folder inside, which
is there as soon as a file is in it.
-/

namespace PlanFlow

/-- Why a file cannot be read or written. -/
inductive FileFault where
  | noSuchFile
  | isFolder
  | notFolder
  | other (text : String)
  deriving DecidableEq, Inhabited

namespace FileFault

/-- The wording of the fault. -/
def message : FileFault → String
  | .noSuchFile => "No such file or directory (os error 2)"
  | .isFolder => "Is a directory (os error 21)"
  | .notFolder => "Not a directory (os error 20)"
  | .other text => text

end FileFault

/-- Texts by the paths of their files. -/
structure Folder where
  files : Entries String
  deriving Inhabited

namespace Folder

/-- The pieces of a text between the slashes. -/
def pieces : List Char → List (List Char)
  | [] => [[]]
  | c :: rest =>
    if c = '/' then [] :: pieces rest
    else match pieces rest with
      | [] => [[c]]
      | piece :: more => (c :: piece) :: more

/-- The names of a path. -/
def names (path : String) : List String :=
  ((pieces path.toList).map String.ofList).filter fun name => name != "" && name != "."

/-- The path of some names. -/
def pathOf (names : List String) : String := "/".intercalate names

/-- The folder of some files by their paths. -/
def ofFiles (files : List (String × String)) : Folder :=
  ⟨Entries.ofList (files.map fun (path, text) => (pathOf (names path), text))⟩

/-- The text of the file that some names lead to. -/
def file? (f : Folder) (path : List String) : Option String := Entries.find? (pathOf path) f.files

/-- Whether some names lead to a folder. -/
def isFolder (f : Folder) (path : List String) : Bool :=
  path.isEmpty ||
    f.files.any fun entry => path.isPrefixOf (names entry.1) && (names entry.1) != path

/-- Whether a path ends in the name of a folder. -/
def endsInFolder (path : String) : Bool :=
  match (pieces path.toList).getLast? with
  | some last => last.isEmpty || last == ['.']
  | none => false

/-- What stands in the way of some names that are to lead to a file. -/
def obstacle? (f : Folder) : List String → List String → Option FileFault
  | _, [] => none
  | before, name :: rest =>
    let here := before ++ [name]
    if rest.isEmpty then none
    else if (f.file? here).isSome then some .notFolder
    else if f.isFolder here then f.obstacle? here rest
    else some .noSuchFile

/-- Why a path that starts at the top does not lead to a file: the folder is all there is. -/
def unreachable? (path : String) : Option FileFault :=
  if path.toList.head? = some '/' ∨ path = "" ∨ (names path).contains ".." then some .noSuchFile
  else none

/-- Reads a file. -/
def read (f : Folder) (path : String) : Except FileFault String :=
  match (unreachable? path).or (f.obstacle? [] (names path)) with
  | some fault => .error fault
  | none =>
    match f.file? (names path) with
    | some text => if endsInFolder path then .error .notFolder else .ok text
    | none => .error (if f.isFolder (names path) then .isFolder else .noSuchFile)

/-- Writes a file, in a folder that is there. -/
def write (f : Folder) (path text : String) : Except FileFault Folder :=
  match (unreachable? path).or (f.obstacle? [] (names path)) with
  | some fault => .error fault
  | none =>
    if f.isFolder (names path) || endsInFolder path then .error .isFolder
    else .ok ⟨Entries.insert (pathOf (names path)) text f.files⟩

end Folder
end PlanFlow
