import Phrasebook.Suggestion
import Phrasebook.Word

/-!
The ways on from a position of a scope's tree to the ends of the patterns below it. Open places are
not entered, they stay in the suggestions.
-/

namespace Phrasebook

/-- A way on: first the letters that finish the word being spelled, then whole segments. -/
structure Tail where
  letters : List Char := []
  segments : List Segment := []

namespace Tail

def more (c : Char) (t : Tail) : Tail := { t with letters := c :: t.letters }

def start (c : Char) (t : Tail) : Tail :=
  { segments := .word (String.ofList (c :: t.letters)) :: t.segments }

def close (t : Tail) : List Segment :=
  if t.letters = [] then t.segments else .text (String.ofList t.letters) :: t.segments

def slot (p : Placeholder) (t : Tail) : Tail := { segments := .slot p :: t.close }

/-- What follows the tokens of `input`, the last of which may be an unfinished word. -/
def suggestion (input : List Word) (t : Tail) : Suggestion where
  stem := if t.letters = [] then none else input.getLast?.map (·.text)
  segments := t.close

end Tail

namespace Node

mutual

def tails : Node → List Tail
  | mk _ isEnd chars words slots =>
    (if isEnd then [{}] else []) ++ edgeTails .more chars ++ edgeTails .start words ++
      slotTails slots

def edgeTails (enter : Char → Tail → Tail) : List (Char × Node) → List Tail
  | [] => []
  | (c, n) :: rest => n.tails.map (enter c) ++ edgeTails enter rest

def slotTails : List (Placeholder × Node) → List Tail
  | [] => []
  | (p, n) :: rest => n.tails.map (.slot p) ++ slotTails rest

end

def complete (n : Node) (input : List Word) : List Suggestion := n.tails.map (Tail.suggestion input)

end Node
end Phrasebook
