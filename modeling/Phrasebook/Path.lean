import Phrasebook.Text.Split

/-!
Paths as texts: parts between slashes, where empty parts and single dots after the first part say
nothing.
-/

namespace Phrasebook.Path
open Text (pieces joinPieces)

def isAbsolute (path : String) : Bool := path.toList.head? = some '/'

def isSilent (part : List Char) : Bool := part.isEmpty || part == ['.']

/-- The parts without the silent ones at the end; the first part always stays. -/
def trimParts : List (List Char) → List (List Char)
  | [] => []
  | p :: ps => p :: (ps.reverse.dropWhile isSilent).reverse

def parts (path : String) : List (List Char) := trimParts (pieces '/' path.toList)

def ofParts (absolute : Bool) (ps : List (List Char)) : String :=
  if absolute && ps.length ≤ 1 then "/" else String.ofList (joinPieces '/' ps)

def parent? (path : String) : Option String :=
  let ps := parts path
  match ps with
  | [] | [[]] => none
  | [_] => some ""
  | _ => some (ofParts (isAbsolute path) (trimParts ps.dropLast))

def fileName? (path : String) : Option (List Char) :=
  match (parts path).getLast? with
  | none => none
  | some name => if isSilent name || name == ['.', '.'] then none else some name

/-- What follows the last dot of the name; a dot at its start does not count. -/
def extension? (path : String) : Option String :=
  match fileName? path with
  | none => none
  | some name =>
    let after := (name.reverse.takeWhile (· ≠ '.')).reverse
    if name.length ≤ after.length + 1 then none else some (String.ofList after)

def join (directory name : String) : String :=
  if isAbsolute name then name
  else if directory.isEmpty || directory.toList.getLast? = some '/' then directory ++ name
  else directory ++ "/" ++ name

end Phrasebook.Path
