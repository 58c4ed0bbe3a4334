import Phrasebook.Path
import Phrasebook.Text.Utf8

/-!
A tree of files as a value: what a program that reads and writes files finds there and leaves
behind. A path is followed part by part from the working directory; every part but the last has to
be a directory.
-/

namespace Phrasebook
open Text (Bytes)

inductive FileFault where
  | missing
  | exists
  | notDirectory
  | isDirectory
  | nameTooLong
  | badName
  | notText
deriving DecidableEq

def FileFault.message : FileFault → String
  | .missing => "No such file or directory (os error 2)"
  | .exists => "File exists (os error 17)"
  | .notDirectory => "Not a directory (os error 20)"
  | .isDirectory => "Is a directory (os error 21)"
  | .nameTooLong => "File name too long (os error 36)"
  | .badName => "file name contained an unexpected NUL byte"
  | .notText => "stream did not contain valid UTF-8"

inductive FileEntry where
  | file (content : Bytes)
  | directory
deriving DecidableEq

abbrev Place := List String

structure FileTree where
  working : Place
  entries : List (Place × FileEntry)
deriving DecidableEq

namespace FileTree

def entry? (t : FileTree) (place : Place) : Option FileEntry :=
  if place = [] then some .directory else t.entries.lookup place

def put (t : FileTree) (place : Place) (e : FileEntry) : FileTree :=
  { t with entries := (place, e) :: t.entries.filter fun x => x.1 ≠ place }

/-- Where a path leads: to a directory, or to a name in one, with or without a slash after it. -/
inductive Spot where
  | directory (place : Place)
  | name (directory : Place) (name : String) (slash : Bool)
deriving DecidableEq

def nameLimit : Nat := 255

def pathLimit : Nat := 4096

def lookUp (t : FileTree) (place : Place) (name : String) : Except FileFault (Option FileEntry) :=
  if nameLimit < name.utf8ByteSize then .error .nameTooLong
  else .ok (t.entry? (place ++ [name]))

def enter (t : FileTree) (place : Place) (name : String) : Except FileFault Place := do
  match ← t.lookUp place name with
  | none => .error .missing
  | some .directory => .ok (place ++ [name])
  | some (.file _) => .error .notDirectory

def follow (t : FileTree) (slash : Bool) : Place → List String → Except FileFault Spot
  | place, [] => .ok (.directory place)
  | place, "." :: rest => follow t slash place rest
  | place, ".." :: rest => follow t slash place.dropLast rest
  | place, [name] => .ok (.name place name slash)
  | place, name :: rest => do follow t slash (← t.enter place name) rest

def spot (t : FileTree) (path : String) : Except FileFault Spot :=
  if path.isEmpty then .error .missing
  else if '\x00' ∈ path.toList then .error .badName
  else if pathLimit ≤ path.utf8ByteSize then .error .nameTooLong
  else
    let names := (Text.pieces '/' path.toList).filter (!·.isEmpty)
    follow t (path.toList.getLast? = some '/') (if Path.isAbsolute path then [] else t.working)
      (names.map String.ofList)

def find (t : FileTree) (path : String) : Except FileFault FileEntry := do
  match ← t.spot path with
  | .directory _ => .ok .directory
  | .name place name slash =>
    match ← t.lookUp place name, slash with
    | none, _ => .error .missing
    | some (.file _), true => .error .notDirectory
    | some e, _ => .ok e

def pathExists (t : FileTree) (path : String) : Bool :=
  match t.find path with
  | .ok _ => true
  | .error _ => false

def isDirectory (t : FileTree) (path : String) : Bool :=
  match t.find path with
  | .ok .directory => true
  | _ => false

def read (t : FileTree) (path : String) : Except FileFault Bytes := do
  match ← t.find path with
  | .file content => .ok content
  | .directory => .error .isDirectory

def readText (t : FileTree) (path : String) : Except FileFault String := do
  match Text.decode? (← t.read path) with
  | some s => .ok s
  | none => .error .notText

/-- Makes a file or replaces the content of one. With a slash after it, the last name is not even
looked up: it can only be that of a directory. -/
def write (t : FileTree) (path : String) (content : Bytes) : Except FileFault FileTree := do
  match ← t.spot path with
  | .directory _ | .name _ _ true => .error .isDirectory
  | .name place name false =>
    match ← t.lookUp place name with
    | some .directory => .error .isDirectory
    | _ => .ok (t.put (place ++ [name]) (.file content))

def makeDirectory (t : FileTree) (path : String) : Except FileFault FileTree := do
  match ← t.spot path with
  | .directory _ => .error .exists
  | .name place name _ =>
    match ← t.lookUp place name with
    | some _ => .error .exists
    | none => .ok (t.put (place ++ [name]) .directory)

def orPresent (t : FileTree) (path : String) (e : FileFault) : Except FileFault FileTree :=
  if t.isDirectory path then .ok t else .error e

/-- Makes a directory and those it is in, as far as they are missing. The faults of the ancestors
come first. On failure the directories made so far stay, so the tree is returned either way. -/
def makeDirectories (t : FileTree) (path : String) : FileTree × Except FileFault Unit :=
  if path.isEmpty then (t, .ok ())
  else match t.makeDirectory path with
    | .ok t => (t, .ok ())
    | .error .missing =>
      match Path.parent? path with
      | none => (t, .error .missing)
      | some up =>
        if up.length < path.length then
          match makeDirectories t up with
          | (t, .error e) => (t, .error e)
          | (t, .ok ()) =>
            match t.makeDirectory path with
            | .ok t => (t, .ok ())
            | .error e => (t, (t.orPresent path e).map fun _ => ())
        else (t, .error .missing)
    | .error e => (t, (t.orPresent path e).map fun _ => ())
termination_by path.length

end FileTree
end Phrasebook
