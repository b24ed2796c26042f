import FuseMap.Command.Path

/-! # File systems

A file system as a value: the files with their contents and the directories. Every directory above
a file or a directory exists too.

Left out are links, permissions and a full disk: a file has one place, a file that is there can be
read and replaced, and a write is done whole or not at all. What is said of the files that a run
leaves is said of such file systems.
-/

namespace FuseMap.Command

/-- The reason why a file cannot be opened. -/
inductive FileError
  | missing
  | isDirectory
  | notADirectory
  | nameTooLong
  | nullInPath
deriving DecidableEq, Repr

def FileError.message : FileError → String
  | .missing => "No such file or directory"
  | .isDirectory => "Is a directory"
  | .notADirectory => "Not a directory"
  | .nameTooLong => "File name too long"
  | .nullInPath => "embedded null byte"

/-- The files by their places, and the directories that are known apart from them. -/
structure FileSystem where
  files : List (Path × ByteArray) := []
  directories : List Path := []

namespace FileSystem

def content? (fs : FileSystem) (place : Path) : Option ByteArray :=
  fs.files.lookup place

/-- Whether a place lies above another. -/
def isAbove (place other : Path) : Bool :=
  place.anchor == other.anchor && place.parts.length < other.parts.length &&
    other.parts.take place.parts.length == place.parts

/-- Whether a place is a directory. The anchors and all directories above them exist. -/
def isDirectory (fs : FileSystem) (place : Path) : Bool :=
  place.parts.all (· == "..") || fs.directories.contains place ||
    fs.directories.any (isAbove place) || fs.files.any fun (file, _) => isAbove place file

/-- The place of a part in a directory. Above the root there is only the root. -/
def step (place : Path) (part : String) : Path :=
  if part = ".." then
    if place.parts.all (· == "..") then
      if place.anchor = .root then place else place.child part
    else place.parent
  else place.child part

/-- The place that a path means if all of its directories exist. -/
def placeOf (p : Path) : Path :=
  p.parts.foldl step ⟨p.anchor.usual, []⟩

/-- The length of the longest name in bytes. -/
def maxNameLength : Nat := 255

/-- The length of the longest path in bytes. -/
def maxPathLength : Nat := 4095

/-- Follows the parts of a path from a place. All but the last have to lead to directories. -/
def follow (fs : FileSystem) (place : Path) : List String → Except FileError Path
  | [] => .ok place
  | part :: rest =>
    if (fs.content? place).isSome then .error .notADirectory
    else if ¬ fs.isDirectory place then .error .missing
    else if maxNameLength < part.utf8ByteSize then .error .nameTooLong
    else follow fs (step place part) rest

/-- The place that a path leads to. -/
def locate (fs : FileSystem) (p : Path) : Except FileError Path :=
  if p.parts.any (·.toList.contains '\x00') then .error .nullInPath
  else if maxPathLength < p.text.utf8ByteSize then .error .nameTooLong
  else fs.follow ⟨p.anchor.usual, []⟩ p.parts

def isFile (fs : FileSystem) (p : Path) : Except FileError Bool :=
  match fs.locate p with
  | .ok place => .ok (fs.content? place).isSome
  | .error .nameTooLong => .error .nameTooLong
  | .error _ => .ok false

def read (fs : FileSystem) (p : Path) : Except FileError ByteArray := do
  let place ← fs.locate p
  match fs.content? place with
  | some bytes => return bytes
  | none => throw (if fs.isDirectory place then .isDirectory else .missing)

/-- The files with a new or changed content at a place. -/
def insertFile (place : Path) (bytes : ByteArray) :
    List (Path × ByteArray) → List (Path × ByteArray)
  | [] => [(place, bytes)]
  | (p, old) :: rest =>
    if p = place then (p, bytes) :: rest else (p, old) :: insertFile place bytes rest

/-- The file system after a file has been written; the directory above it has to exist. -/
def write (fs : FileSystem) (p : Path) (bytes : ByteArray) : Except FileError FileSystem := do
  let place ← fs.locate p
  if fs.isDirectory place then
    throw .isDirectory
  return { fs with files := insertFile place bytes fs.files }

end FileSystem

end FuseMap.Command
