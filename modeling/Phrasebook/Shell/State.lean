import Phrasebook.Consult
import Phrasebook.GrammarFile
import Phrasebook.Settings.Stored

/-!
What a shell holds between two commands: the dictionary, how it is asked, and where its grammar and
its settings are kept.
-/

namespace Phrasebook.Shell

structure State where
  dictionary : Dictionary := {}
  scope : Option String := none
  lookahead : Nat := 0
  limit : Option Nat := none
  format : Format := .json
  grammarPath : Option String := none
  configPath : Option String := none

namespace State

def configure (s : State) (settings : Settings) : State :=
  { s with
    scope := settings.scope
    lookahead := settings.lookahead.getD 0
    limit := settings.limit
    format := settings.format.getD s.format }

def currentScope (s : State) : Except Failure String := s.dictionary.chooseScope s.scope

def suggest (s : State) (input : List String) : Except Failure (List Suggestion) := do
  s.dictionary.consult (← s.currentScope) (wordsOf input) s.lookahead s.limit

def walks (s : State) (input : List String) : Except Failure (List (Nat × Nat)) := do
  let id ← s.dictionary.findScope (← s.currentScope)
  .ok ((s.dictionary.scopeWalks id (wordsOf input)).map fun w => (w.stack.length, w.rest.length))

/-- Takes the grammar of a file; a scope it does not have is asked no longer. -/
def adopt (s : State) (file : GrammarFile) : State :=
  { s with
    dictionary := file.dictionary
    format := file.detection.format
    grammarPath := some file.path
    scope := s.scope.filter fun name => (file.dictionary.resolve? name).isSome }

def grammar (s : State) : Grammar := Grammar.capture s.dictionary

def settings (s : State) : Settings where
  grammarPath := s.grammarPath
  format := some s.format
  scope := s.scope
  lookahead := some s.lookahead
  limit := s.limit

def saveSettings (s : State) (around : Surroundings) (t : FileTree) : Outcome Unit :=
  s.settings.save around t s.configPath

end State
end Phrasebook.Shell
