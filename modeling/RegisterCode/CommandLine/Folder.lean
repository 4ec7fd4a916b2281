/-!
Names of files: the extension of a path, why a file cannot be read, and what a
path leads to from a folder. A path is followed name by name, and the first
name that leads nowhere decides the failure.
-/

namespace RegisterCode.CommandLine

/-- The names along a path, without the ones that lead nowhere. -/
def pathNames (path : String) : List String :=
  ((path.splitOn "/").filter fun name => name ≠ "" ∧ name ≠ ".")

/-- What follows the last point in the last name of a path, unless nothing
stands before that point. -/
def extension? (path : String) : Option String := do
  let name ← (pathNames path).getLast?
  if name = ".." then none
  else
    let parts := name.splitOn "."
    let last ← parts.getLast?
    if parts.length < 2 ∨ (parts.length = 2 ∧ parts.head? = some "") then none else some last

/-- Why a file cannot be read: a number and the wording that goes with it. -/
structure ReadFailure where
  code : Nat
  text : String
deriving DecidableEq, Repr

namespace ReadFailure

def noSuchFile : ReadFailure := ⟨2, "No such file or directory"⟩

def permissionDenied : ReadFailure := ⟨13, "Permission denied"⟩

def notAFolder : ReadFailure := ⟨20, "Not a directory"⟩

def isAFolder : ReadFailure := ⟨21, "Is a directory"⟩

def nameTooLong : ReadFailure := ⟨36, "File name too long"⟩

def message (f : ReadFailure) : String := s!"{f.text} (os error {f.code})"

end ReadFailure

/-- What a name in a folder stands for. -/
inductive Entry where
  | file (content : List UInt8)
  | folder (entries : List (String × Entry))

/-- The names in a folder. Of two equal names the first counts. -/
abbrev Folder := List (String × Entry)

/-- A folder that holds nothing but files. -/
def Folder.ofFiles (files : List (String × List UInt8)) : Folder :=
  files.map fun (name, content) => (name, .file content)

/-- The longest name a file can have, in bytes. -/
def nameLimit : Nat := 255

/-- A path has to be shorter than this, in bytes. -/
def pathLimit : Nat := 4096

/-- A folder and the folders around it, the nearest first. -/
structure Place where
  here : Folder
  around : List Folder

namespace Place

/-- The folder around this one; the outermost folder is around itself. -/
def up : Place → Place
  | ⟨_, outer :: around⟩ => ⟨outer, around⟩
  | ⟨here, []⟩ => ⟨here, []⟩

def enter (p : Place) (folder : Folder) : Place := ⟨folder, p.here :: p.around⟩

/-- Follows the names of a path. Whatever comes after the name of a file, if
only the empty name behind a slash, asks for a folder where there is a file. -/
def read (p : Place) : List String → Except ReadFailure (List UInt8)
  | [] => .error .isAFolder
  | name :: rest =>
    if name = "" ∨ name = "." then p.read rest
    else if name = ".." then p.up.read rest
    else if nameLimit < name.utf8ByteSize then .error .nameTooLong
    else
      match p.here.lookup name with
      | none => .error .noSuchFile
      | some (.file content) => if rest.isEmpty then .ok content else .error .notAFolder
      | some (.folder inner) => (p.enter inner).read rest

end Place

/-- The outermost folder, as far as all systems agree on it. -/
def outermost : Folder :=
  let bare := ["bin", "boot", "lib", "media", "mnt", "opt", "run", "sbin", "srv", "tmp", "usr",
    "var"]
  ("dev", .folder (Folder.ofFiles [("null", [])])) ::
    ("etc", .folder (Folder.ofFiles [("passwd", [])])) ::
    bare.map fun name => (name, .folder [])

/-- Where a path starts: at the outermost folder if it begins with a slash, else
at the folder at hand, which is a temporary one with a name that nobody knows. -/
def Place.ofPath (folder : Folder) (path : String) : Place :=
  if path.startsWith "/" then ⟨outermost, []⟩ else ⟨folder, [[], outermost]⟩

/-- The content of the file at a path that starts at a folder. -/
def Folder.read (folder : Folder) (path : String) : Except ReadFailure (List UInt8) :=
  if path.isEmpty then .error .noSuchFile
  else if pathLimit ≤ path.utf8ByteSize then .error .nameTooLong
  else (Place.ofPath folder path).read (path.splitOn "/")

end RegisterCode.CommandLine
