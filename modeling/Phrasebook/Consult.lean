import Phrasebook.Failure

/-!
Asking a dictionary a question: which scope answers it, and how many suggestions are wanted.
-/

namespace Phrasebook

def atMost {α : Type} (limit : Option Nat) (l : List α) : List α :=
  match limit with
  | some n => l.take n
  | none => l

namespace Dictionary

def mainScope : String := "main"

def chooseScope (d : Dictionary) (named : Option String) : Except Failure String :=
  match named with
  | some name => if (d.resolve? name).isSome then .ok name else .error (.noSuchScope name)
  | none =>
    if (d.resolve? mainScope).isSome then .ok mainScope
    else match d.names with
      | name :: _ => .ok name
      | [] => .error .noScopes

def findScope (d : Dictionary) (name : String) : Except Failure ScopeId :=
  match d.find name with
  | .ok id => .ok id
  | .error e => .error (.refused e)

def consult (d : Dictionary) (scope : String) (input : List Word) (lookahead : Nat)
    (limit : Option Nat) : Except Failure (List Suggestion) := do
  let id ← d.findScope scope
  .ok (atMost limit (d.suggest id input lookahead))

end Dictionary

def wordsOf (texts : List String) : List Word := texts.flatMap Word.ofText

end Phrasebook
