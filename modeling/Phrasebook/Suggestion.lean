import Phrasebook.Trie.Node

/-!
A suggestion is what may follow an input: the rest of the word being typed, then whole words and
open places. Suggestions are joined end to end; the joined text is the two texts one after the other.
-/

namespace Phrasebook

inductive Segment where
  /-- Letters that go on with the word before them. -/
  | text (s : String)
  | word (s : String)
  | slot (p : Placeholder)
deriving DecidableEq, Hashable

namespace Segment

def render : Segment → String
  | .text s => s
  | .word s => " " ++ s
  | .slot p => " <" ++ p.name ++ ">"

def isSlot : Segment → Bool
  | .slot _ => true
  | _ => false

end Segment

/-- The stem is the typed part of the word that the first segment finishes. -/
structure Suggestion where
  stem : Option String := none
  segments : List Segment := []
deriving DecidableEq, Hashable

namespace Suggestion

def render (s : Suggestion) : String := String.join (s.segments.map Segment.render)

def isResolved (s : Suggestion) : Bool := s.segments.all fun x => !x.isSlot

def completedWord (s : Suggestion) : Option String :=
  match s.stem, s.segments with
  | some stem, .text rest :: _ => some (stem ++ rest)
  | _, _ => none

/-- Letters at the start of the second list go on with a word at the end of the first. -/
def joinSegments : List Segment → List Segment → List Segment
  | [.text a], .text b :: rest => .text (a ++ b) :: rest
  | [.word a], .text b :: rest => .word (a ++ b) :: rest
  | [], other => other
  | x :: xs, other => x :: joinSegments xs other

def concat (a b : Suggestion) : Suggestion where
  stem := a.stem <|> b.stem
  segments := joinSegments a.segments b.segments

end Suggestion
end Phrasebook
