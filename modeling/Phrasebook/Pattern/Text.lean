import Phrasebook.Pattern
import Phrasebook.Text.Split

/-!
The written form of patterns. Tokens are parted by blanks; a token between angle brackets is a
lookup, every other token is a word. Inside the brackets commas part the aliases, a colon parts an
alias from its contexts and bars part the contexts; an alias alone is its own context.
-/

namespace Phrasebook

def Lookup.bindingText (name : String) (contexts : List String) : String :=
  if contexts = [name] then name else name ++ ":" ++ String.intercalate "|" contexts

def Lookup.text (l : Lookup) : String :=
  "<" ++ String.intercalate "," (l.aliases.entries.map fun b => bindingText b.1 b.2) ++ ">"

def Element.text : Element → String
  | .word w => w.text
  | .lookup l => l.text

def Pattern.text (p : Pattern) : String := String.intercalate " " (p.elements.map Element.text)

namespace Pattern
open Text (pieces halves?)

def isBracket (c : Char) : Bool := c = '<' || c = '>'

def readBinding (token : String) (l : Lookup) (binding : List Char) :
    Except PatternError Lookup :=
  let (name, contexts) := (halves? ':' binding).getD (binding, binding)
  let names := pieces '|' contexts
  if name = [] then .error (.badToken token .emptyAlias)
  else if [] ∈ names then .error (.badToken token .emptyContext)
  else l.declare (String.ofList name) (names.map String.ofList)

def readLookup (token : String) (s : List Char) : Except PatternError Lookup :=
  if s.getLast? ≠ some '>' then .error (.badToken token .unterminated)
  else
    let inner := s.dropLast
    if inner = [] then .error (.badToken token .emptyLookup)
    else if inner.any isBracket then .error (.badToken token .nestedBracket)
    else (pieces ',' inner).foldlM (readBinding token) .empty

def readToken (token : Word) : Except PatternError Element :=
  match token.letters with
  | '<' :: s => Element.lookup <$> readLookup token.text s
  | s => if s.any isBracket then .error (.badToken token.text .strayBracket) else .ok (.word token)

def readTokens : List Word → Except PatternError (List Element)
  | [] => .ok []
  | t :: ts => do
    let e ← readToken t
    let es ← readTokens ts
    .ok (e :: es)

def ofText (text : String) : Except PatternError Pattern := Pattern.mk <$> readTokens (Word.ofText text)

inductive Form where
  | written (text : String)
  | built (pattern : Pattern)

def Form.read : Form → Except PatternError Pattern
  | .written text => ofText text
  | .built pattern => pattern.checked

end Pattern
end Phrasebook
