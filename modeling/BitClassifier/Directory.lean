/-!
# Directories

A directory with the files and folders below it, and what reading and writing a path in it does. The
parts `.` and `..` of a path are followed. The folders above the directory are there as well, and
nothing is found in them but what has been written there.
-/

namespace BitClassifier

/-- Why a file cannot be read or written. -/
inductive FileError where
  | notFound
  | notADirectory
  | isADirectory
  | nameTooLong
  | notText
  | nulInPath
  | other (text : String)
deriving DecidableEq, Repr

/-- The text of a reason. -/
def FileError.message : FileError → String
  | notFound => "No such file or directory (os error 2)"
  | notADirectory => "Not a directory (os error 20)"
  | isADirectory => "Is a directory (os error 21)"
  | nameTooLong => "File name too long (os error 36)"
  | notText => "stream did not contain valid UTF-8"
  | nulInPath => "file name contained an unexpected NUL byte"
  | other text => text

/-- A path without `.` and `..`, from the directory downwards. -/
abbrev Location := List String

/-- A folder. -/
inductive Place where
  /-- The directory itself or a folder below it. -/
  | within (location : Location)
  /-- The folder so many levels above the one that the directory lies in. -/
  | above (levels : Nat)
  /-- The topmost folder. -/
  | root
deriving DecidableEq, Repr

/-- The folder that a folder lies in. The topmost one lies in itself. -/
def Place.parent : Place → Place
  | within [] => above 0
  | within location => within location.dropLast
  | above levels => above (levels + 1)
  | root => root

/-- The files and folders below a directory, and the files that have been written outside of it. -/
structure Directory where
  folders : List Location
  files : List (Location × ByteArray)
  outside : List ((Place × String) × ByteArray) := []

/-- A path as it is written: `name` in the folder `folder`, or `name` itself if it is absolute or
the folder has no name. -/
def joinPath (folder name : String) : String :=
  if name.toList.head? = some '/' || folder.isEmpty then name
  else if folder.toList.getLast? = some '/' then folder ++ name
  else folder ++ "/" ++ name

/-- The parts of a path between its slashes. -/
def pathParts (path : String) : List String :=
  (path.toList.splitOn '/').map String.ofList

namespace Directory

/-- Whether a place is the directory itself or a folder below it. -/
def hasFolder (d : Directory) (place : Location) : Bool :=
  place.isEmpty || d.folders.contains place

/-- The contents of the file at a place. -/
def file? (d : Directory) (place : Location) : Option ByteArray :=
  (d.files.find? (·.1 = place)).map (·.2)

/-- The contents of a file outside of the directory. -/
def outsideFile? (d : Directory) (folder : Place) (name : String) : Option ByteArray :=
  (d.outside.find? (·.1 = (folder, name))).map (·.2)

/-- Enters the folder of a name in a folder. -/
def enterFolder (d : Directory) (name : String) : Place → Except FileError Place
  | .within folder =>
    if d.hasFolder (folder ++ [name]) then .ok (.within (folder ++ [name]))
    else if (d.file? (folder ++ [name])).isSome then .error .notADirectory
    else .error .notFound
  | folder =>
    if (d.outsideFile? folder name).isSome then .error .notADirectory else .error .notFound

/-- Enters the parts of a path one after another. -/
def enter (d : Directory) (place : Place) : (parts : List String) → Except FileError Place
  | [] => .ok place
  | part :: parts =>
    if part = "" || part = "." then d.enter place parts
    else if part = ".." then d.enter place.parent parts
    else if 255 < part.utf8ByteSize then .error .nameTooLong
    else
      match d.enterFolder part place with
      | .error e => .error e
      | .ok place' => d.enter place' parts

/-- What a path names. -/
inductive Destination where
  | folder (place : Place)
  /-- What has a name in a folder, if anything has. -/
  | entry (folder : Place) (name : String)
deriving DecidableEq, Repr

/-- What a path names: the folder is there, the last part need not be. -/
def locate (d : Directory) (path : String) : Except FileError Destination :=
  if path.toList.contains '\x00' then .error .nulInPath
  else if path.isEmpty then .error .notFound
  else if 4096 ≤ path.utf8ByteSize then .error .nameTooLong
  else
    let parts := pathParts path
    match parts.getLast? with
    | none => .error .notFound
    | some last => do
      let start := if path.toList.head? = some '/' then .root else .within []
      let folder ← d.enter start parts.dropLast
      if last = "" || last = "." then return .folder folder
      else if last = ".." then return .folder folder.parent
      else if 255 < last.utf8ByteSize then throw .nameTooLong
      else return .entry folder last

/-- The bytes of the file that a path names. -/
def contents (d : Directory) : Destination → Except FileError ByteArray
  | .folder _ => .error .isADirectory
  | .entry (.within folder) name =>
    if d.hasFolder (folder ++ [name]) then .error .isADirectory
    else (d.file? (folder ++ [name])).elim (.error .notFound) .ok
  | .entry folder name => (d.outsideFile? folder name).elim (.error .notFound) .ok

/-- The text of the file at a path. -/
def read (d : Directory) (path : String) : Except FileError String := do
  let bytes ← d.contents (← d.locate path)
  match String.fromUTF8? bytes with
  | some text => return text
  | none => throw .notText

/-- Makes a file with the given text, or gives the file at a path that text. -/
def write (d : Directory) (path text : String) : Except FileError Directory := do
  match ← d.locate path with
  | .folder _ => throw .isADirectory
  | .entry (.within folder) name =>
    let place := folder ++ [name]
    if d.hasFolder place then throw .isADirectory
    return { d with files := (place, text.toUTF8) :: d.files.filter (·.1 ≠ place) }
  | .entry folder name =>
    return { d with
      outside := ((folder, name), text.toUTF8) :: d.outside.filter (·.1 ≠ (folder, name)) }

end Directory

end BitClassifier
