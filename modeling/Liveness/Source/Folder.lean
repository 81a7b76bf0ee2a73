/-
Liveness/Source/Folder.lean

A folder of files, as a value: directories and files by their parts.  What lies
outside the folder is taken to be empty.

A path as a whole, and each name in it, may have only so many bytes.  The path
is measured before it is followed, a name when its directory is reached.
-/
import Liveness.Source.Path
import Liveness.Text.Quoted

namespace Liveness

/-- Why a file cannot be read or written. -/
inductive FileFault where
  | missing
  | isDirectory
  | belowFile
  | nulInName
  | nameTooLong
  deriving DecidableEq, Repr

/-- The wording of a fault at a path. -/
def FileFault.message (path : Path) : FileFault → String
  | .missing => s!"[Errno 2] No such file or directory: {Text.quoted path.text}"
  | .isDirectory => s!"[Errno 21] Is a directory: {Text.quoted path.text}"
  | .belowFile => s!"[Errno 20] Not a directory: {Text.quoted path.text}"
  | .nulInName => "embedded null byte"
  | .nameTooLong => s!"[Errno 36] File name too long: {Text.quoted path.text}"

/-- Files with their bytes, and directories, each by the parts of its path. -/
structure Folder where
  directories : List (List String)
  files : List (List String × List UInt8)

namespace Folder

instance : EmptyCollection Folder := ⟨⟨[], []⟩⟩

/-- What stands at a place. -/
inductive Place where
  | directory (parts : List String)
  | file (parts : List String)
  | free (parts : List String)
  | outside

/-- Whether there is a directory at some parts; those above a directory are there too. -/
def hasDirectory (f : Folder) (parts : List String) : Bool :=
  parts.isEmpty || f.directories.any fun d => parts.isPrefixOf d

/-- What stands at some parts, in a directory that is there. -/
def placeAt (f : Folder) (parts : List String) : Place :=
  if f.hasDirectory parts then .directory parts
  else if (f.files.lookup parts).isSome then .file parts
  else .free parts

/-- The number of bytes that a name may have. -/
def nameLimit : Nat := 255

/-- The number of bytes that a path may have. -/
def pathLimit : Nat := 4095

/-- Go one part further. -/
def enter (f : Folder) (place : Place) (part : String) : Except FileFault Place :=
  match place with
  | .directory parts =>
    if part == ".." then
      if parts.isEmpty then .ok .outside else .ok (.directory parts.dropLast)
    else if nameLimit < part.utf8ByteSize then .error .nameTooLong
    else .ok (f.placeAt (parts ++ [part]))
  | .file _ => .error .belowFile
  | .free _ => .error .missing
  | .outside =>
    if part == ".." then .ok .outside
    else if nameLimit < part.utf8ByteSize then .error .nameTooLong
    else .error .missing

/-- What a path leads to. -/
def locate (f : Folder) (path : Path) : Except FileFault Place :=
  if path.parts.any fun part => part.toList.contains '\x00' then .error .nulInName
  else if pathLimit < path.text.utf8ByteSize then .error .nameTooLong
  else path.parts.foldlM f.enter (if path.root == "" then .directory [] else .outside)

/-- The bytes of the file at a path. -/
def read (f : Folder) (path : Path) : Except FileFault (List UInt8) := do
  match ← f.locate path with
  | .file parts => return (f.files.lookup parts).getD []
  | .free _ => throw .missing
  | .directory _ | .outside => throw .isDirectory

/-- Put a file at some parts. -/
def put (f : Folder) (parts : List String) (bytes : List UInt8) : Folder :=
  { f with files := f.files.filter (·.1 != parts) ++ [(parts, bytes)] }

/-- Write the file at a path. -/
def write (f : Folder) (path : Path) (bytes : List UInt8) : Except FileFault Folder := do
  match ← f.locate path with
  | .file parts | .free parts => return f.put parts bytes
  | .directory _ | .outside => throw .isDirectory

end Folder

end Liveness
