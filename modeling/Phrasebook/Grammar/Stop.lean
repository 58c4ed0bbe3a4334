import Phrasebook.Grammar.Json
import Phrasebook.Json.Position

/-!
Where the reading of a grammar stood when it met a fault. The fault shows with some token; it is told in
the middle of that token, at its end, or a little later, when what follows has been looked at.
-/

namespace Phrasebook.Grammar
open Json (Fault Position Token dropByte dropToken)
open Text (Bytes)

def showsFault (f : Fault) (ts : List Token) : Bool :=
  match ofTokens ts with
  | .ok _ => false
  | .error f' => f' = f

def behindItem (s : Bytes) : Bytes :=
  match s.dropWhile Json.isSpace with
  | 0x2c :: s => dropByte s
  | s => s.drop 1

/-- What is left of the text when the fault is told; `s` begins with the token that shows it. -/
def behindFault (s : Bytes) : Fault → Bytes
  | .flaw (.wrong _ (.within bytes)) => (s.dropWhile Json.isSpace).drop bytes
  | .flaw (.wrong _ .behind) | .duplicateField _ => dropByte (dropToken s)
  | .flaw (.early _) => []
  | .wrongType (.int _) _ | .wrongType (.float _) _ => (dropToken s).drop 1
  | .pattern _ | .noVariant _ => behindItem (dropToken s)
  | _ => dropToken s

def position? (s : Bytes) (f : Fault) : Option Position :=
  if let .unreadable _ := f then none
  else
    let ts := Json.tokens s
    let count := Json.leastFrom (fun n => showsFault f (ts.take n)) 0 ts.length
    let rest := behindFault (Json.dropTokens (count - 1) s) f
    some (Position.behind (s.take (s.length - rest.length)))

end Phrasebook.Grammar
