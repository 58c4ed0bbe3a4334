import Phrasebook.Dictionary
import Phrasebook.Proofs.InPlace
import Phrasebook.Proofs.Trie.Filing
import Phrasebook.Trie.Numbered

/-!
The nodes of all scopes in one arena. A node says what it is and names the nodes its edges lead to by
their numbers, which are their places in the arena. Nothing is ever taken out: patterns are inserted by
following the edges that are there and adding nodes where there are none.
-/

namespace Phrasebook

abbrev NodeId := Nat

structure Cell where
  kind : Entry
  chars : Edges NodeId := []
  words : Edges NodeId := []
  lookups : List NodeId := []
  isEnd : Bool := false

structure Arena where
  nodes : List Cell := []

/-- Why work on an arena breaks off: for a number that no node has, or because the start of a scope was
to go on with a word. -/
inductive Breach where
  | unallocated (id : NodeId)
  | rootContinued (id : NodeId)

abbrev Laying := InPlace Breach Arena

inductive Edge where
  | char
  | word
deriving DecidableEq

namespace Cell

def fresh (kind : Entry) : Cell := { kind := kind }

def edges (cell : Cell) : Edge → Edges NodeId
  | .char => cell.chars
  | .word => cell.words

def fileEdge (edge : Edge) (c : Char) (child : NodeId) (cell : Cell) : Cell :=
  match edge with
  | .char => { cell with chars := cell.chars.file c child }
  | .word => { cell with words := cell.words.file c child }

def targets (cell : Cell) : List NodeId :=
  cell.chars.map Prod.snd ++ cell.words.map Prod.snd ++ cell.lookups

end Cell

namespace Arena

def node (id : NodeId) : Laying Cell := do
  match (← get).nodes[id]? with
  | some cell => pure cell
  | none => throw (.unallocated id)

def alloc (kind : Entry) : Laying NodeId := do
  let id := (← get).nodes.length
  modify fun a => { a with nodes := a.nodes ++ [.fresh kind] }
  pure id

def change (id : NodeId) (f : Cell → Cell) : Laying Unit := do
  let cell ← node id
  modify fun a => { a with nodes := a.nodes.set id (f cell) }

def markEnd (id : NodeId) : Laying Unit := change id ({ · with isEnd := true })

def ensureChild (parent : NodeId) (edge : Edge) (c : Char) : Laying NodeId := do
  let cell ← node parent
  match (cell.edges edge).look c with
  | some child => pure child
  | none =>
    if edge = .char ∧ cell.kind.isRoot then throw (.rootContinued parent)
    else
      let child ← alloc (.char c)
      change parent (Cell.fileEdge edge c child)
      pure child

def findLookup (p : Placeholder) : List NodeId → Laying (Option NodeId)
  | [] => pure none
  | id :: rest => do
    if (← node id).kind = .slot p then pure (some id) else findLookup p rest

def fileLookup (p : Placeholder) (child : NodeId) : List NodeId → Laying (List NodeId)
  | [] => pure [child]
  | id :: rest => do
    match (← node id).kind with
    | .slot q =>
      if p.name < q.name then pure (child :: id :: rest) else return id :: (← fileLookup p child rest)
    | _ => return id :: (← fileLookup p child rest)

def ensureLookup (parent : NodeId) (p : Placeholder) : Laying NodeId := do
  match ← findLookup p (← node parent).lookups with
  | some child => pure child
  | none =>
    let child ← alloc (.slot p)
    let lookups ← fileLookup p child (← node parent).lookups
    change parent ({ · with lookups })
    pure child

mutual

def insert (id : NodeId) : List Step → Laying Unit
  | [] => pure ()
  | .word w :: rest =>
    match w.letters with
    | [] => pure ()
    | c :: s => do
      let first ← ensureChild id .word c
      let last ← s.foldlM (fun current c => ensureChild current .char c) first
      advance last rest
  | .places ps :: rest => ps.forM fun p => do advance (← ensureLookup id p) rest
termination_by steps => (steps.length, 0)

def advance (id : NodeId) (rest : List Step) : Laying Unit :=
  if rest.isEmpty then markEnd id else insert id rest
termination_by (rest.length, 1)

end

end Arena
end Phrasebook
