import Phrasebook.Detection
import Phrasebook.Outcome

/-!
Grammar files: opening one means finding out its format, reading it and building its dictionary.
-/

namespace Phrasebook

structure GrammarFile where
  path : String
  detection : Detection
  grammar : Grammar
  dictionary : Dictionary

namespace GrammarFile

def read (t : FileTree) (path : String) (format : Format) : Except Failure Grammar :=
  match Grammar.load t path format with
  | .ok g => .ok g
  | .error fault => .error (.readGrammar format path fault)

def build (path : String) (g : Grammar) : Except Failure Dictionary :=
  match g.build with
  | .ok d => .ok d
  | .error e => .error (.invalidGrammar path e)

def load (t : FileTree) (path : String) (given : Option Format) : Except Failure GrammarFile := do
  let detection ← detect t path given
  let grammar ← read t path detection.format
  let dictionary ← build path grammar
  .ok ⟨path, detection, grammar, dictionary⟩

def save (g : Grammar) (t : FileTree) (path : String) (format : Format) : Outcome Unit :=
  match g.save t path format with
  | .ok t => .ok t ()
  | .error fault => .fail t (.writeGrammar path fault)

end GrammarFile
end Phrasebook
