import Phrasebook.Trie.Edges

/-!
The tree in which one scope keeps its patterns, letter by letter. A position in it is left by a
letter that goes on with the word being spelled, by the first letter of the next word, or by an open
place. `paths` lists what is stored; `insert` stores one more path and numbers the positions it has
to make, so that every position bears the number of its making.
-/

namespace Phrasebook

abbrev ScopeId := Nat

/-- An open place: its name and the scopes, never none, that may fill it. -/
structure Placeholder where
  name : String
  contexts : List ScopeId
deriving DecidableEq

instance : Hashable Placeholder := ⟨fun p => mixHash (hash p.name) (hash p.contexts)⟩

inductive Label where
  | more (c : Char)
  | start (c : Char)
  | slot (p : Placeholder)
deriving DecidableEq

abbrev Slots (α : Type) := List (Placeholder × α)

namespace Slots
variable {α : Type}

def find? (p : Placeholder) : Slots α → Option α
  | [] => none
  | s :: rest => if s.1 = p then some s.2 else find? p rest

/-- A new place stands after the places whose name is not greater. -/
def put (p : Placeholder) (target : α) : Slots α → Slots α
  | [] => [(p, target)]
  | s :: rest =>
    if s.1 = p then (p, target) :: rest
    else if p.name < s.1.name then (p, target) :: s :: rest
    else s :: put p target rest

end Slots

inductive Node where
  | mk (number : Nat) (isEnd : Bool) (chars words : List (Char × Node))
    (slots : List (Placeholder × Node))

namespace Node

def number : Node → Nat
  | mk number .. => number

def isEnd : Node → Bool
  | mk _ isEnd .. => isEnd

def chars : Node → Edges Node
  | mk _ _ chars .. => chars

def words : Node → Edges Node
  | mk _ _ _ words _ => words

def slots : Node → Slots Node
  | mk _ _ _ _ slots => slots

instance : Inhabited Node := ⟨mk 0 false [] [] []⟩

def fresh (number : Nat) : Node := mk number false [] [] []

def isLeaf (n : Node) : Bool := n.chars.isEmpty && n.words.isEmpty && n.slots.isEmpty

def markEnd : Node → Node
  | mk number _ chars words slots => mk number true chars words slots

def child? : Label → Node → Option Node
  | .more c, n => n.chars.find? c
  | .start c, n => n.words.find? c
  | .slot p, n => n.slots.find? p

def put : Node → Label → Node → Node
  | mk number isEnd chars words slots, .more c, child =>
    mk number isEnd (Edges.put c child chars) words slots
  | mk number isEnd chars words slots, .start c, child =>
    mk number isEnd chars (Edges.put c child words) slots
  | mk number isEnd chars words slots, .slot p, child =>
    mk number isEnd chars words (Slots.put p child slots)

/-- Stores a path; `next` is the number for the first position made. -/
def insert : List Label → Nat → Node → Node × Nat
  | [], next, n => (n.markEnd, next)
  | l :: path, next, n =>
    let (child, next) := match n.child? l with
      | some child => insert path next child
      | none => insert path (next + 1) (fresh next)
    (n.put l child, next)

mutual

/-- The stored paths: the one that ends here, then those by letters, by words and by places. -/
def paths : Node → List (List Label)
  | mk _ isEnd chars words slots =>
    (if isEnd then [[]] else []) ++ edgePaths .more chars ++ edgePaths .start words ++
      slotPaths slots

def edgePaths (label : Char → Label) : List (Char × Node) → List (List Label)
  | [] => []
  | (c, n) :: rest => n.paths.map (label c :: ·) ++ edgePaths label rest

def slotPaths : List (Placeholder × Node) → List (List Label)
  | [] => []
  | (p, n) :: rest => n.paths.map (.slot p :: ·) ++ slotPaths rest

end

def follow : List Char → Node → Option Node
  | [], n => some n
  | c :: s, n => (n.chars.find? c).bind (follow s)

def spell : List Char → Node → Option Node
  | [], _ => none
  | c :: s, n => (n.words.find? c).bind (follow s)

end Node
end Phrasebook
