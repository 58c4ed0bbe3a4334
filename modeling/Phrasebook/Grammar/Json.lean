import Phrasebook.Grammar
import Phrasebook.Json.Writer
import Phrasebook.Pattern.Json

/-!
Grammars as JSON documents: an object whose member `scopes` holds the list of patterns of each
scope. Other members are passed over. Reading stops at the first thing that is wrong.
-/

namespace Phrasebook.Grammar
open Json (Fault Flaw Token Tree liftFlaw)

def toJson (g : Grammar) : Json :=
  .object [("scopes", .object (g.scopes.entries.map fun s => (s.1, .array (s.2.map Pattern.toJson))))]

def jsonText (g : Grammar) : String := g.toJson.pretty

def patternsOfTrees (depth : Nat) : List Tree → Except Fault (List Pattern)
  | [] => .ok []
  | t :: ts => do
    let v ← liftFlaw (t.value depth)
    let p ← Pattern.ofJson v
    .ok (p :: (← patternsOfTrees depth ts))

def patternsOfTree (depth : Nat) : Tree → Except Fault (List Pattern)
  | .array items ending => do
    let patterns ← patternsOfTrees (depth - 1) items
    liftFlaw ending.wanted
    .ok patterns
  | t => t.mismatch "a sequence"

def scopesOfMembers (depth : Nat) :
    List (Except Flaw String × Tree) → NameMap (List Pattern) → Except Fault (NameMap (List Pattern))
  | [], scopes => .ok scopes
  | (key, t) :: ms, scopes => do
    let name ← liftFlaw key
    let patterns ← patternsOfTree depth t
    scopesOfMembers depth ms (scopes.insert name patterns)

def scopesOfTree (depth : Nat) : Tree → Except Fault (NameMap (List Pattern))
  | .object members ending => do
    let scopes ← scopesOfMembers (depth - 1) members .empty
    liftFlaw ending.wanted
    .ok scopes
  | t => t.mismatch "a map"

/-- The member `scopes`, which may stand among others but only once. -/
def findScopes (depth : Nat) : List (Except Flaw String × Tree) → Option (NameMap (List Pattern)) →
    Except Fault (Option (NameMap (List Pattern)))
  | [], found => .ok found
  | (key, t) :: ms, found => do
    let name ← liftFlaw key
    if name = "scopes" then
      if found.isSome then .error (.duplicateField name)
      else do
        let scopes ← scopesOfTree depth t
        findScopes depth ms (some scopes)
    else do
      liftFlaw t.skip
      findScopes depth ms found

def ofTree (depth : Nat) : Tree → Except Fault Grammar
  | .object members ending => do
    let found ← findScopes (depth - 1) members none
    liftFlaw ending.wanted
    match found with
    | some scopes => .ok ⟨scopes⟩
    | none => .error (.missingField "scopes")
  | .array [] ending => do
    liftFlaw ending.wanted
    .error (.wrongLength 0 "struct Grammar with 1 element")
  | .array (t :: rest) ending => do
    let scopes ← scopesOfTree (depth - 1) t
    liftFlaw (ending.after rest)
    .ok ⟨scopes⟩
  | t => t.mismatch "struct Grammar"

def ofTokens (ts : List Token) : Except Fault Grammar := do
  let (t, rest) := Tree.read ts
  let g ← ofTree Json.depthLimit t
  if rest.isEmpty then .ok g else .error (.flaw (.first .tooMuch))

def ofJsonBytes (s : Text.Bytes) : Except Fault Grammar := ofTokens (Json.tokens s)

end Phrasebook.Grammar
