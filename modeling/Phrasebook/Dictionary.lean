import Phrasebook.Pattern.Text
import Phrasebook.Trie.Node

/-!
A dictionary holds named scopes, each a tree of stored patterns, and numbers their positions in the
order in which they are made. A pattern is stored once for every choice of one alias in each of its
lookups. All names a pattern mentions are resolved before anything is stored, so a refused request
changes nothing.
-/

namespace Phrasebook

structure Scope where
  name : String
  root : Node

structure Dictionary where
  scopes : List Scope := []
  nodeCount : Nat := 0

instance : Inhabited Dictionary := ⟨{}⟩

/-- An element whose contexts are known scopes: a word, or one place for each alias. -/
inductive Step where
  | word (w : Word)
  | places (ps : List Placeholder)

namespace Step

def spelled : List Char → List Label
  | [] => []
  | c :: s => .start c :: s.map .more

def choices : Step → List (List Label)
  | .word w => [spelled w.letters]
  | .places ps => ps.map fun p => [.slot p]

/-- The paths of a sequence of steps, the choice at the first place varying slowest. -/
def paths : List Step → List (List Label)
  | [] => [[]]
  | s :: rest => s.choices.flatMap fun head => (paths rest).map (head ++ ·)

end Step

namespace Dictionary

def names (d : Dictionary) : List String := d.scopes.map (·.name)

def resolve? (d : Dictionary) (name : String) : Option ScopeId :=
  d.scopes.findIdx? fun s => s.name = name

def name? (d : Dictionary) (id : ScopeId) : Option String := d.scopes[id]?.map (·.name)

def root? (d : Dictionary) (id : ScopeId) : Option Node := d.scopes[id]?.map (·.root)

def ids (d : Dictionary) : List ScopeId := List.range d.scopes.length

theorem length_erase_lt {id : ScopeId} {free : List ScopeId} (h : id ∈ free) :
    (free.erase id).length < free.length := by
  have := List.length_pos_of_mem h
  rw [List.length_erase_of_mem h]
  omega

def find (d : Dictionary) (name : String) : Except ScopeError ScopeId :=
  match d.resolve? name with
  | some id => .ok id
  | none => .error (.unknownScope name)

def resolveContexts (scopeOf : String → Option ScopeId) (name : String) :
    List String → Except ScopeError (List ScopeId)
  | [] => .ok []
  | c :: cs =>
    match scopeOf c with
    | none => .error (.unknownContext name c)
    | some id => do .ok (id :: (← resolveContexts scopeOf name cs))

def resolveAliases (scopeOf : String → Option ScopeId) :
    List (String × List String) → Except ScopeError (List Placeholder)
  | [] => .ok []
  | (name, contexts) :: rest => do
    let ids ← resolveContexts scopeOf name contexts
    .ok (⟨name, ids⟩ :: (← resolveAliases scopeOf rest))

def resolveElements (scopeOf : String → Option ScopeId) :
    List Element → Except ScopeError (List Step)
  | [] => .ok []
  | .word w :: rest => do .ok (.word w :: (← resolveElements scopeOf rest))
  | .lookup l :: rest => do
    let ps ← resolveAliases scopeOf l.aliases.entries
    .ok (.places ps :: (← resolveElements scopeOf rest))

def declare (d : Dictionary) (name : String) : Except ScopeError Dictionary :=
  if name ∈ d.names then .error (.scopeExists name)
  else .ok {
    scopes := d.scopes ++ [⟨name, .fresh d.nodeCount⟩]
    nodeCount := d.nodeCount + 1 }

def storePath (id : ScopeId) (d : Dictionary) (path : List Label) : Dictionary :=
  match d.scopes[id]? with
  | none => d
  | some scope =>
    let (root, next) := scope.root.insert path d.nodeCount
    { scopes := d.scopes.set id { scope with root }, nodeCount := next }

/-- The empty pattern is not stored. -/
def store (id : ScopeId) (d : Dictionary) (steps : List Step) : Dictionary :=
  if steps.isEmpty then d else (Step.paths steps).foldl (storePath id) d

def add (d : Dictionary) (id : ScopeId) (form : Pattern.Form) : Except ScopeError Dictionary :=
  match form.read with
  | .error e => .error (.pattern e)
  | .ok pattern => do .ok (store id d (← resolveElements d.resolve? pattern.elements))

/-- Patterns are never taken out again. -/
def remove (_ : Dictionary) (_ : ScopeId) (form : Pattern.Form) : Except ScopeError Dictionary :=
  match form.read with
  | .error e => .error (.pattern e)
  | .ok _ => .error .removalUnsupported

def readForms : List Pattern.Form → Except PatternError (List Pattern)
  | [] => .ok []
  | f :: fs => do
    let p ← f.read
    .ok (p :: (← readForms fs))

def resolvePending (d : Dictionary) (name : String) (context : String) : Option ScopeId :=
  d.resolve? context <|> if context = name then some d.scopes.length else none

def resolvePatterns (scopeOf : String → Option ScopeId) :
    List Pattern → Except ScopeError (List (List Step))
  | [] => .ok []
  | p :: ps => do
    let steps ← resolveElements scopeOf p.elements
    .ok (steps :: (← resolvePatterns scopeOf ps))

/-- Registers a scope and stores its patterns, which may refer to the scope itself. -/
def define (d : Dictionary) (name : String) (forms : List Pattern.Form) :
    Except ScopeError Dictionary :=
  if name ∈ d.names then .error (.scopeExists name)
  else match readForms forms with
    | .error e => .error (.pattern e)
    | .ok patterns => do
      let steps ← resolvePatterns (d.resolvePending name) patterns
      let declared ← d.declare name
      .ok (steps.foldl (store d.scopes.length) declared)

end Dictionary
end Phrasebook
