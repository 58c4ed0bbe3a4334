import Phrasebook.Trie.Node

/-!
The positions of a tree by number, each with the way it is entered.
-/

namespace Phrasebook

inductive Entry where
  | root (scope : ScopeId)
  | char (c : Char)
  | slot (p : Placeholder)
deriving DecidableEq

namespace Entry

def isRoot : Entry → Bool
  | root _ => true
  | _ => false

def isChar : Entry → Bool
  | char _ => true
  | _ => false

end Entry

namespace Node

mutual

def positions (e : Entry) : Node → List (Entry × Node)
  | mk number isEnd chars words slots =>
    (e, mk number isEnd chars words slots) ::
      (edgePositions chars ++ edgePositions words ++ slotPositions slots)

def edgePositions : List (Char × Node) → List (Entry × Node)
  | [] => []
  | (c, n) :: rest => n.positions (.char c) ++ edgePositions rest

def slotPositions : List (Placeholder × Node) → List (Entry × Node)
  | [] => []
  | (p, n) :: rest => n.positions (.slot p) ++ slotPositions rest

end

end Node
end Phrasebook
