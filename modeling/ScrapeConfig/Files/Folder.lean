/-!
# Files

What may come of reading a file, and a folder of files that paths are looked up in.
-/

namespace ScrapeConfig

/-- Why a file can not be read. -/
inductive FileFault where
  | notFound
  | isDirectory
  | notDirectory
  | nameTooLong
  | zeroInName
  | notUtf8
  | other (reason : String)
  deriving DecidableEq, Repr

def FileFault.message : FileFault → String
  | .notFound => "No such file or directory (os error 2)"
  | .isDirectory => "Is a directory (os error 21)"
  | .notDirectory => "Not a directory (os error 20)"
  | .nameTooLong => "File name too long (os error 36)"
  | .zeroInName => "file name contained an unexpected NUL byte"
  | .notUtf8 => "stream did not contain valid UTF-8"
  | .other reason => reason

/-- What reading a file yields. -/
abbrev Contents := Except FileFault ByteArray

/-- The text that bytes spell in UTF-8. -/
def Contents.text (c : Contents) : Except FileFault String := do
  match String.fromUTF8? (← c) with
  | some text => .ok text
  | none => .error .notUtf8

/-- A folder on the way up from the one that relative paths begin in. Nothing is known of the way to
the root, so the root stands apart. -/
inductive Place where
  | above (levels : Nat)
  | root
  deriving DecidableEq, Repr

def Place.here : Place := .above 0

/-- The folder above; the root is its own. -/
def Place.up : Place → Place
  | above levels => above (levels + 1)
  | root => root

/-- Where a path begins. -/
def Place.start (path : String) : Place := if path.startsWith "/" then .root else .here

/-- A file by its name in the folder it stands in. -/
structure File where
  place : Place
  name : String
  bytes : ByteArray

/-- The files that paths can lead to. All stand in folders on the way up; no other folder is known. -/
structure Folder where
  files : List File := []

namespace Folder

def longestName : Nat := 255

def longestPath : Nat := 4095

/-- What a path leads to. Empty parts and `.` stay in the folder, `..` leads to the one above. -/
def lookup (f : Folder) (place : Place) : List String → Contents
  | [] => .error .isDirectory
  | "" :: rest => f.lookup place rest
  | "." :: rest => f.lookup place rest
  | ".." :: rest => f.lookup place.up rest
  | name :: rest =>
    if longestName < name.utf8ByteSize then .error .nameTooLong
    else match f.files.find? fun file => file.place = place ∧ file.name = name with
      | none => .error .notFound
      | some file => if rest.isEmpty then .ok file.bytes else .error .notDirectory

/-- The contents of what a path leads to. -/
def contents (f : Folder) (path : String) : Contents :=
  if path.toList.contains '\x00' then .error .zeroInName
  else if path = "" then .error .notFound
  else if longestPath < path.utf8ByteSize then .error .nameTooLong
  else f.lookup (.start path) (path.splitOn "/")

/-- The folder and name that a new file gets from the parts of its path. -/
def newFile? (place : Place) : List String → Option (Place × String)
  | [] => none
  | "" :: rest => newFile? place rest
  | "." :: rest => newFile? place rest
  | ".." :: rest => newFile? place.up rest
  | [name] => if longestName < name.utf8ByteSize then none else some (place, name)
  | _ => none

/-- Writes a file, if its path leads to a folder that is known and gives it a name. -/
def write (f : Folder) (path : String) (bytes : ByteArray) : Folder :=
  if path.toList.contains '\x00' ∨ longestPath < path.utf8ByteSize then f
  else match newFile? (.start path) (path.splitOn "/") with
    | some (place, name) => ⟨⟨place, name, bytes⟩ :: f.files⟩
    | none => f

end Folder

end ScrapeConfig
