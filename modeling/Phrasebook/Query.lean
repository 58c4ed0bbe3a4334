import Phrasebook.Lookahead
import Phrasebook.Walk

/-!
What a scope answers: the suggestions for an input, and the patterns it stores.
-/

namespace Phrasebook

namespace Walk

/-- What finishes the innermost pattern, joined with what finishes each pattern around it. -/
def unwindFrom (input : List Word) (top : Node) : List Node → List Suggestion
  | [] => top.complete input
  | n :: inner =>
    (unwindFrom input n inner).flatMap fun head => (top.complete []).map head.concat

def unwind (w : Walk) (input : List Word) : List Suggestion := unwindFrom input w.top w.inner

end Walk

def distinct (seen : List Suggestion) : List Suggestion → List Suggestion
  | [] => []
  | s :: rest => if s ∈ seen then distinct seen rest else s :: distinct (s :: seen) rest

namespace Dictionary

def continuations (d : Dictionary) (id : ScopeId) (input : List Word) : List Suggestion :=
  distinct [] (((d.scopeWalks id input).filter Walk.isComplete).flatMap (·.unwind input))

def suggest (d : Dictionary) (id : ScopeId) (input : List Word) (lookahead : Nat) :
    List Suggestion :=
  let open_ := d.continuations id input
  if lookahead = 0 then open_
  else distinct [] (open_.flatMap fun s => d.resolve s lookahead)

def completions (d : Dictionary) (id : ScopeId) (input : List Word) : List Suggestion :=
  match d.root? id with
  | none => []
  | some root => root.complete input

def elementsAlong (d : Dictionary) : List Label → List Char × List Element
  | [] => ([], [])
  | .more c :: path =>
    let (letters, elements) := d.elementsAlong path
    (c :: letters, elements)
  | .start c :: path =>
    let (letters, elements) := d.elementsAlong path
    ([], (Word.cut (c :: letters)).map .word ++ elements)
  | .slot p :: path =>
    let (_, elements) := d.elementsAlong path
    ([], .lookup (.single p.name (p.contexts.filterMap d.name?)) :: elements)

/-- The stored patterns of a scope; one with several aliases comes back once for each choice. -/
def patterns (d : Dictionary) (id : ScopeId) : List Pattern :=
  match d.root? id with
  | none => []
  | some root => root.paths.map fun path => ⟨(d.elementsAlong path).2⟩

end Dictionary
end Phrasebook
