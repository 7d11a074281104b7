/-!
# Folders

A folder holds files under their names. A path names a file by the way to it: its parts
stand between slashes and are followed one after another, beginning at the folder or,
behind a leading slash, at the outermost folder there is.

## Implementation notes

Nothing is known of the folders around, except that they are folders: a name that is
looked up there is missing.
-/

namespace TreeWalk.CommandLine

/-- Why a file cannot be read: the number of the reason and its words. -/
structure OpenError where
  number : Nat
  reason : String
  deriving DecidableEq

namespace OpenError

/-- There is no such file. -/
def missing : OpenError := ⟨2, "No such file or directory"⟩

/-- A path goes on behind a file. -/
def notFolder : OpenError := ⟨20, "Not a directory"⟩

/-- A path ends at a folder. -/
def isFolder : OpenError := ⟨21, "Is a directory"⟩

/-- A path or one of its parts has too many bytes. -/
def nameTooLong : OpenError := ⟨36, "File name too long"⟩

end OpenError

/-- Files with their names. -/
structure Folder where
  files : List (String × String)

namespace Folder

/-- Where the parts of a path have led. -/
inductive Place
  | inside
  | outside
  | file (text : String)
  deriving DecidableEq

/-- The most bytes of one part of a path. -/
def partLimit : Nat := 255

/-- The most bytes of a path. -/
def pathLimit : Nat := 4095

/-- Look up a name at a place that is a folder. -/
def enter (f : Folder) (place : Place) (name : String) : Except OpenError Place :=
  if partLimit < name.utf8ByteSize then .error .nameTooLong
  else
    match place, f.files.lookup name with
    | .inside, some text => .ok (.file text)
    | _, _ => .error .missing

/-- Follow one part of a path. An empty one and a dot stay, two dots lead to the folder
around. -/
def follow (f : Folder) (place : Place) (part : String) : Except OpenError Place :=
  match place with
  | .file _ => .error .notFolder
  | _ =>
    if part = "" || part = "." then .ok place
    else if part = ".." then .ok .outside
    else f.enter place part

/-- Where a path begins. -/
def origin (path : String) : Place :=
  if path.startsWith "/" then .outside else .inside

/-- Where a path leads. The empty path leads nowhere. -/
def locate (f : Folder) (path : String) : Except OpenError Place :=
  if path = "" then .error .missing
  else if pathLimit < path.utf8ByteSize then .error .nameTooLong
  else (path.splitOn "/").foldlM f.follow (origin path)

/-- The text of the file that a path names. -/
def read (f : Folder) (path : String) : Except OpenError String := do
  match ← f.locate path with
  | .file text => return text
  | _ => throw .isFolder

end Folder

end TreeWalk.CommandLine
