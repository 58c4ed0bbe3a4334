import Phrasebook.FileTree
import Phrasebook.Text.Blank
import Phrasebook.Text.Lines
import Phrasebook.Text.Offset

/-!
The lines entered so far, newest first. They give a hint, the rest of the newest line that goes on with
what is typed, and they are kept in a file from one session to the next.
-/

namespace Phrasebook.Shell
open Text (Bytes)

/-- At most `capacity` lines are kept. `unsaved` tells that some were added since the file was read. -/
structure History where
  capacity : Nat := 100
  skipsIndented : Bool := false
  lines : List String := []
  unsaved : Bool := false
deriving DecidableEq

namespace History

/-- An empty line and one equal to the line before it are not kept, nor, if so wanted, one that begins
with a blank. -/
def ignores (h : History) (line : String) : Bool :=
  line.isEmpty || h.lines.head? = some line ||
    h.skipsIndented && line.toList.head?.any Text.isBlank

def add (h : History) (line : String) : History :=
  if h.ignores line then h
  else { h with lines := (line :: h.lines).take h.capacity, unsaved := true }

def ofLines (lines : List String) : History := lines.foldl add {}

inductive HintFault where
  | cursorInside
deriving DecidableEq

/-- A hint is given at the end of a line only. A cursor far behind the end may stand inside a
character of the line that is found. -/
def hint (h : History) (line : String) (cursor : Nat) : Except HintFault (Option String) :=
  if line.isEmpty || cursor < line.utf8ByteSize then .ok none
  else match h.lines.find? fun l => line.toList.isPrefixOf l.toList with
    | none => .ok none
    | some found =>
      if found = line then .ok none
      else match Text.afterBytes? cursor found.toList with
        | some rest => .ok (some (String.ofList rest))
        | none => .error .cursorInside

def mark : String := "#V2"

def escape (line : String) : String :=
  String.ofList (line.toList.flatMap fun c =>
    if c = '\\' then ['\\', '\\'] else if c = '\n' then ['\\', 'n'] else [c])

def unescape? : List Char → Option (List Char)
  | [] => some []
  | '\\' :: '\\' :: cs => ('\\' :: ·) <$> unescape? cs
  | '\\' :: 'n' :: cs => ('\n' :: ·) <$> unescape? cs
  | '\\' :: _ => none
  | c :: cs => (c :: ·) <$> unescape? cs

/-- A line with a wrong escape is taken as it stands. -/
def unescape (line : String) : String :=
  match unescape? line.toList with
  | some cs => String.ofList cs
  | none => line

def readable : List Bytes → List String × Bool
  | [] => ([], true)
  | line :: rest =>
    match Text.decode? line with
    | some text => ((text :: (readable rest).1), (readable rest).2)
    | none => ([], false)

/-- Takes in what a file holds. If it can only be read in part, what was read counts as added. -/
def takeIn (h : History) (content : Bytes) : History :=
  let (lines, whole) := readable (Text.byteLines content)
  let lines := if lines.head? = some mark then lines.tail.map unescape else lines
  let h := lines.foldl add h
  if whole then { h with unsaved := false } else h

def load (h : History) (t : FileTree) (path : String) : History :=
  match t.read path with
  | .ok content => h.takeIn content
  | .error _ => h

def text (h : History) : String :=
  mark ++ "\n" ++ String.join (h.lines.reverse.map fun line => escape line ++ "\n")

/-- Nothing is written if nothing was added. -/
def save (h : History) (t : FileTree) (path : String) : Except FileFault FileTree :=
  if h.unsaved then t.write path (Text.utf8 h.text) else .ok t

end History
end Phrasebook.Shell
