import Phrasebook.Suggestion
import Phrasebook.Terminal.Style

/-!
Suggestions as they are shown: the text typed so far, then what would follow it.
-/

namespace Phrasebook
open Terminal (Colors paint)

def Segment.shown (colors : Colors) : Segment → String
  | .text s => paint colors (.colored .green) s
  | .word s => " " ++ paint colors (.colored .green) s
  | .slot p => " " ++ paint colors (.colored .yellow) ("<" ++ p.name ++ ">")

def Suggestion.shown (colors : Colors) (typed : String) (s : Suggestion) : String :=
  paint colors .dimmed typed ++
    if s.segments.isEmpty then " " ++ paint colors (.colored .brightBlack) "(complete)"
    else String.join (s.segments.map (Segment.shown colors))

def numbered (indent : String) (rows : List String) : String :=
  String.join (rows.zipIdx.map fun r => indent ++ toString (r.2 + 1) ++ ". " ++ r.1 ++ "\n")

end Phrasebook
