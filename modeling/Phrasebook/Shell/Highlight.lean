import Phrasebook.Failure
import Phrasebook.Shell.Command
import Phrasebook.Terminal.Style

/-!
Colours for a line while it is typed: the command, the scope it names, lookups, separators and counts.
A line that starts with no command stays as it is.
-/

namespace Phrasebook.Shell
open Terminal (Colors Style paint)

def isLookupText (part : String) : Bool :=
  part.toList.head? = some '<' || part.toList.getLast? = some '>'

def argumentStyle (part : String) : Option Style :=
  if isLookupText part then some (.colored .yellow)
  else if part = ";" then some (.boldColored .magenta)
  else match readCount part with
    | .ok _ => some (.colored .magenta)
    | .error _ => none

def highlightPart (colors : Colors) (style : Option Style) (part : String) : String :=
  match style with
  | some style => paint colors style part
  | none => part

def highlightArguments (colors : Colors) (verb : Verb) : List String → List String
  | [] => []
  | first :: rest =>
    highlightPart colors
        (if verb.takesScope then some (.colored .cyan) else argumentStyle first) first ::
      rest.map fun part => highlightPart colors (argumentStyle part) part

def highlight (colors : Colors) (line : String) : String :=
  match parts line with
  | [] => line
  | first :: args =>
    match Verb.named? (Text.lowercase first) with
    | none => line
    | some verb =>
      spaced (paint colors (.boldColored .blue) first :: highlightArguments colors verb args)

end Phrasebook.Shell
