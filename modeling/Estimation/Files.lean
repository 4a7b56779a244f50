import Estimation.Link
import Estimation.Table

/-!
Trees of files that are held in memory, seen from a working directory. What stands above that
directory is not known, except that there are directories above it.
-/

namespace Estimation

/-- What stands at a path. -/
inductive FileContent where
  | text (s : String)
  /-- Bytes that are no text. -/
  | bytes
  | directory
  deriving DecidableEq, Repr

/-- Files and empty directories by the steps that lead to them. -/
abbrev Files : Type := Table (List (List Char)) FileContent

namespace ReadFault

def notUnicode : ReadFault := .other "stream did not contain valid UTF-8"

def denied : ReadFault := .other "Permission denied (os error 13)"

def notDirectory : ReadFault := .other "Not a directory (os error 20)"

def isDirectory : ReadFault := .other "Is a directory (os error 21)"

def longName : ReadFault := .other "File name too long (os error 36)"

def zeroByte : ReadFault := .other "file name contained an unexpected NUL byte"

end ReadFault

namespace Files

/-- The steps of a path. -/
def steps (path : String) : List (List Char) :=
  (Text.pieces '/' path.toList).filter fun step => step ≠ []

/-- A step to the directory itself or to the one above it is no name. -/
def isName (step : List Char) : Bool := step ≠ ['.'] && step ≠ ['.', '.']

def isLong (name : List Char) : Bool := 255 < (String.ofList name).utf8ByteSize

/-- Directories are there if something is in them. -/
def get? (files : Files) (names : List (List Char)) : Option FileContent :=
  (Table.get? names files).or
    (if files.any fun (other, _) => names.isPrefixOf other then some .directory else none)

/-- Adds a file or an empty directory, and the directories that lead to it. -/
def add (path : String) (content : FileContent) (files : Files) : Files :=
  Table.set ((steps path).filter isName) content files

/-- A directory, by the number of directories that it stands above the working directory, and the
names that lead to it from there. -/
structure Place where
  above : Nat
  names : List (List Char)

namespace Place

/-- Where a path starts. What is at the root is not known either. -/
def start (path : String) : Place := ⟨if path.toList.head? = some '/' then 1 else 0, []⟩

def parent (p : Place) : Place :=
  if p.names.isEmpty then ⟨p.above + 1, []⟩ else ⟨p.above, p.names.dropLast⟩

def child (p : Place) (name : List Char) : Place := ⟨p.above, p.names ++ [name]⟩

end Place

/-- What stands at a place. -/
def at? (files : Files) (p : Place) : Option FileContent :=
  if p.above = 0 then files.get? p.names else none

/-- What steps lead to from a directory, and where it stands. -/
def walk (files : Files) (p : Place) : List (List Char) → Except ReadFault (Place × FileContent)
  | [] => .ok (p, .directory)
  | step :: rest =>
    if step = ['.'] then files.walk p rest
    else if step = ['.', '.'] then files.walk p.parent rest
    else if isLong step then .error .longName
    else
      match files.at? (p.child step) with
      | none => .error .missing
      | some .directory => files.walk (p.child step) rest
      | some content => if rest.isEmpty then .ok (p.child step, content) else .error .notDirectory

/-- What no path may be, whatever files there are. -/
def pathFault? (path : String) : Option ReadFault :=
  if path.toList.contains '\x00' then some .zeroByte
  else if path.isEmpty then some .missing
  else if 4095 < path.utf8ByteSize then some .longName
  else none

def endsInSlash (path : String) : Bool := path.toList.getLast? = some '/'

/-- The text of a file. -/
def read (files : Files) (path : String) : Except ReadFault String := do
  if let some fault := pathFault? path then throw fault
  match (← files.walk (.start path) (steps path)).2 with
  | .directory => throw .isDirectory
  | content =>
    if endsInSlash path then throw .notDirectory
    match content with
    | .text s => return s
    | _ => throw .notUnicode

/-- The names that lead to the file that a path may stand for: there is a directory for it, and no
directory in its place. -/
def fileNames? (files : Files) (path : String) : Option (List (List Char)) := do
  guard ((pathFault? path).isNone && !endsInSlash path)
  let name ← (steps path).getLast?
  guard (isName name && !isLong name)
  let (place, .directory) ← (files.walk (.start path) (steps path).dropLast).toOption | none
  let names := (place.child name).names
  guard (place.above = 0 ∧ files.get? names ≠ some .directory)
  return names

/-- Writes a file, where there can be one. -/
def write (path s : String) (files : Files) : Files :=
  match files.fileNames? path with
  | some names => Table.set names (.text s) files
  | none => files

/-- Removes a file, if it is there. The directory that it stood in stays. -/
def remove (path : String) (files : Files) : Files :=
  match files.fileNames? path with
  | some names => Table.setNew names.dropLast .directory (Table.erase names files)
  | none => files

end Files

end Estimation
