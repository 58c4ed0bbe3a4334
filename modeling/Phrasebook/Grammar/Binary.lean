import Phrasebook.Binary
import Phrasebook.Grammar

/-!
Grammars in the binary layout. A word is tagged 0 and a lookup 1. The bytes are read as a whole
first, and only then the words and lookups in them are checked, scope by scope in the order of the
names.
-/

namespace Phrasebook.Grammar
open Binary (Reader)
open Text (Bytes)

inductive StoredElement where
  | word (text : String)
  | lookup (aliases : List (String × List String))

namespace StoredElement

def ofElement : Element → StoredElement
  | .word w => .word w.text
  | .lookup l => .lookup l.aliases.entries

def element : StoredElement → Except PatternError Element
  | .word text => Element.word <$> Word.ofString text
  | .lookup aliases => Element.lookup <$> Lookup.ofList aliases

def putAlias (b : String × List String) : Bytes :=
  Binary.putText b.1 ++ Binary.putList Binary.putText b.2

def put : StoredElement → Bytes
  | .word text => Binary.putTag 0 ++ Binary.putText text
  | .lookup aliases => Binary.putTag 1 ++ Binary.putList putAlias aliases

def read : Reader StoredElement := fun s => do
  let (tag, s) ← Binary.tag s
  match tag with
  | 0 => do
    let (text, s) ← Binary.text s
    .ok (.word text, s)
  | 1 => do
    let (aliases, s) ← Binary.list (Binary.both Binary.text (Binary.list Binary.text)) s
    .ok (.lookup aliases, s)
  | n => .error (.badTag n 2)

end StoredElement

def putScope (s : String × List Pattern) : Bytes :=
  Binary.putText s.1 ++
    Binary.putList (fun p => Binary.putList (fun e => (StoredElement.ofElement e).put) p.elements) s.2

def binary (g : Grammar) : Bytes := Binary.putList putScope g.scopes.entries

def readScopes : Reader (List (String × List (List StoredElement))) :=
  Binary.list (Binary.both Binary.text (Binary.list (Binary.list StoredElement.read)))

def elementsOfStored : List StoredElement → Except PatternError (List Element)
  | [] => .ok []
  | e :: es => do
    let element ← e.element
    .ok (element :: (← elementsOfStored es))

def patternsOfStored : List (List StoredElement) → Except PatternError (List Pattern)
  | [] => .ok []
  | stored :: rest => do
    let elements ← elementsOfStored stored
    let pattern ← Pattern.checked ⟨elements⟩
    .ok (pattern :: (← patternsOfStored rest))

def scopesOfStored :
    List (String × List (List StoredElement)) → Except PatternError (List (String × List Pattern))
  | [] => .ok []
  | (name, stored) :: rest => do
    let patterns ← patternsOfStored stored
    .ok ((name, patterns) :: (← scopesOfStored rest))

inductive BinaryFault where
  | layout (fault : Binary.Fault)
  | pattern (error : PatternError)
deriving DecidableEq

def ofBinary (s : Bytes) : Except BinaryFault Grammar :=
  match readScopes s with
  | .error f => .error (.layout f)
  | .ok (stored, _) =>
    match scopesOfStored (NameMap.ofList stored).entries with
    | .error e => .error (.pattern e)
    | .ok scopes => .ok ⟨.ofList scopes⟩

end Phrasebook.Grammar
