import Phrasebook.Query

/-!
A grammar is what a dictionary stores, without its trees: the patterns of every scope, by name.
-/

namespace Phrasebook

structure Grammar where
  scopes : NameMap (List Pattern)
deriving DecidableEq

namespace Grammar

def Filled (g : Grammar) : Prop := ∀ s ∈ g.scopes.entries, ∀ p ∈ s.2, p.Filled

def capture (d : Dictionary) : Grammar :=
  ⟨.ofList (d.ids.filterMap fun id => (d.name? id).map fun name => (name, d.patterns id))⟩

def patternCount (g : Grammar) : Nat := g.scopes.values.flatten.length

def declareAll : List String → Dictionary → Except ScopeError Dictionary
  | [], d => .ok d
  | name :: names, d => do declareAll names (← d.declare name)

def addAll (id : ScopeId) : List Pattern → Dictionary → Except ScopeError Dictionary
  | [], d => .ok d
  | p :: ps, d => do addAll id ps (← d.add id (.built p))

def fillScopes : List (String × List Pattern) → Dictionary → Except ScopeError Dictionary
  | [], d => .ok d
  | (name, patterns) :: rest, d => do
    let id ← d.find name
    fillScopes rest (← addAll id patterns d)

/-- The dictionary of the grammar. Every scope is there before any pattern is added, so the scopes
may refer to each other in any order. -/
def build (g : Grammar) : Except ScopeError Dictionary := do
  fillScopes g.scopes.entries (← declareAll g.scopes.names {})

end Grammar
end Phrasebook
