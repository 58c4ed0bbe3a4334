import Phrasebook.Shell.Command
import Phrasebook.Shell.State
import Phrasebook.Text.Offset

/-!
What the tab key offers: names of commands, names of scopes, formats, and after `suggest` the words
that the grammar knows to follow. Places in a line are counted in bytes.
-/

namespace Phrasebook.Shell

structure Candidate where
  display : String
  replacement : String
deriving DecidableEq

structure Offer where
  start : Nat
  candidates : List Candidate
deriving DecidableEq

structure Tab where
  dictionary : Dictionary := {}
  scope : Option String := none
  lookahead : Nat := 0

namespace Tab

def ofState (s : State) : Tab where
  dictionary := s.dictionary
  scope := s.currentScope.toOption
  lookahead := s.lookahead

def plain (text : String) : Candidate := ⟨text, text⟩

def command (name : String) : Candidate := ⟨name, name ++ " "⟩

def startingWith (start : String) (names : List String) : List String :=
  names.filter fun name => start.toList.isPrefixOf name.toList

/-- The word a suggestion offers: the one being typed, finished, or else the one that comes next. -/
def offeredWord (partly : Bool) (s : Suggestion) : Option String :=
  if partly then s.completedWord
  else match s.segments with
    | .word w :: _ => some w
    | _ => none

def distinctWords (seen : List String) : List String → List String
  | [] => []
  | w :: ws => if w ∈ seen then distinctWords seen ws else w :: distinctWords (w :: seen) ws

def words (h : Tab) (typed : List String) (partly : Bool) : List String :=
  match h.scope.bind h.dictionary.resolve? with
  | none => []
  | some id =>
    distinctWords []
      ((h.dictionary.suggest id (wordsOf typed) h.lookahead).filterMap (offeredWord partly))

/-- One byte behind the start of the last blank. -/
def startFrom (index start : Nat) : List Char → Nat
  | [] => start
  | c :: s => startFrom (index + c.utf8Size) (if Text.isBlank c then index + 1 else start) s

def endsInBlank (line : List Char) : Bool :=
  match line.getLast? with
  | some c => Text.isBlank c
  | none => false

structure Typed where
  cursor : Nat
  start : Nat
  first : String
  rest : List String
  trailing : Bool

namespace Typed

def index (p : Typed) : Nat := if p.trailing then p.rest.length + 1 else p.rest.length

def part (p : Typed) : String := if p.trailing then "" else p.rest.getLast?.getD p.first

end Typed

/-- After a word that is whole, the next one is offered with a blank before it. -/
def afterSuggest (h : Tab) (p : Typed) : Offer :=
  if p.rest.isEmpty then ⟨p.cursor, []⟩
  else if p.trailing then ⟨p.cursor, (h.words p.rest false).map plain⟩
  else match h.words p.rest true with
    | [] => ⟨p.cursor, (h.words p.rest false).map fun w => ⟨w, " " ++ w⟩⟩
    | found => ⟨p.start, found.map plain⟩

def argument (h : Tab) (p : Typed) : Offer :=
  let named (names : List String) : Offer := ⟨p.start, (startingWith p.part names).map plain⟩
  match Verb.named? (Text.lowercase p.first), p.index with
  | some .suggest, _ => h.afterSuggest p
  | some .scope, 1 | some .patterns, 1 | some .add, 1 | some .remove, 1 => named h.dictionary.names
  | some .help, 1 => named Verb.offered
  | some .load, 2 => named ["json", "bincode"]
  | _, _ => ⟨0, []⟩

def offer (h : Tab) (line : List Char) : Offer :=
  match (Word.cut line).map (·.text) with
  | [] => ⟨0, Verb.offered.map command⟩
  | first :: rest =>
    let p : Typed :=
      ⟨Text.byteLength line, startFrom 0 0 line, first, rest, endsInBlank line⟩
    if p.index = 0 then
      ⟨p.start, (startingWith (Text.lowercase first) Verb.offered).map command⟩
    else h.argument p

end Tab

def Tab.offerAt? (h : Tab) (line : String) (cursor : Nat) : Option Offer :=
  (Text.firstBytes? cursor line.toList).map h.offer

end Phrasebook.Shell
