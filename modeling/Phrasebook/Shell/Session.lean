import Phrasebook.Shell.History
import Phrasebook.Shell.Run

/-!
A shell session: a greeting, the grammar that the settings name, then commands until one leaves or the
input ends, and at the end the lines that were typed and the settings are kept. What is printed goes to
two places, answers to one and complaints to the other.
-/

namespace Phrasebook.Shell
open Terminal (Colors Style paint)

structure Printed where
  out : String := ""
  err : String := ""
deriving DecidableEq

namespace Printed

def append (a b : Printed) : Printed := ⟨a.out ++ b.out, a.err ++ b.err⟩

instance : Append Printed := ⟨append⟩

end Printed

def version : String := "0.1.0"

def prompt : String := "phrase-trie> "

def historyCapacity : Nat := 1000

def historyFile (around : Surroundings) : String :=
  Path.join around.home ".phrase_trie_history"

def rule : String := String.ofList (List.replicate 55 '\u2550')

def greeting (colors : Colors) : String :=
  let cyan (text : String) := paint colors (.colored .cyan) text
  let key (text : String) := paint colors (.boldColored .yellow) text
  "\n" ++ paint colors (.colored .brightCyan) rule ++ "\n" ++
  paint colors (.boldColored .brightCyan) "   phrase-trie - Phrase Autocompletion" ++ "\n" ++
  paint colors (.colored .brightCyan) rule ++ "\n\n" ++
  "  Version: " ++ paint colors (.colored .green) version ++ "\n" ++
  "  Type " ++ key "'help'" ++ " for available commands\n" ++
  "  Type " ++ key "'exit'" ++ " or press " ++ key "Ctrl+D" ++ " to exit\n\n" ++
  paint colors .bold "  Quick Start:" ++ "\n" ++
  "    \u2022 Define a scope:   " ++ cyan "define devices fan ; kitchen light" ++ "\n" ++
  "    \u2022 Reference it:     " ++ cyan "define main turn on <device:devices>" ++ "\n" ++
  "    \u2022 Get suggestions:  " ++ cyan "suggest turn o" ++ "\n" ++
  "    \u2022 Show settings:    " ++ cyan "settings" ++ "\n\n"

def complaint (colors : Colors) (text : String) : Printed :=
  { err := paint colors (.boldColored .red) "Error" ++ ": " ++ text ++ "\n" }

def warning (colors : Colors) : String := paint colors (.colored .yellow) "Warning"

structure Session where
  colors : Colors
  around : Surroundings
  state : State
  files : FileTree

namespace Session

def readGrammar (s : Session) (settings : Settings) : Session × Printed :=
  match settings.grammarFile s.around s.files with
  | (t, .error _) => ({ s with files := t }, {})
  | (t, .ok path) =>
    let s := { s with files := t }
    if !t.pathExists path then (s, {})
    else
      let cyan := paint s.colors (.colored .cyan)
      let opening : Printed := { out := "  Loading grammar from " ++ cyan path ++ "...\n" }
      match GrammarFile.load t path settings.format with
      | .error f =>
        (s, opening ++
          ⟨"\n", "  " ++ warning s.colors ++ ": Could not load grammar: " ++ f.report ++ "\n"⟩)
      | .ok file =>
        let count := paint s.colors (.boldColored .green) (toString file.grammar.patternCount)
        let scopes := paint s.colors (.colored .green) (toString file.dictionary.scopes.length)
        ({ s with state := s.state.adopt file }, opening ++
          { out := "  Loaded " ++ count ++ " pattern(s) in " ++ scopes ++ " scope(s)\n\n" })

def start (colors : Colors) (around : Surroundings) (t : FileTree) (config : Option String)
    (given : Settings) : Session × Printed :=
  let (t, stored) := Settings.loadOrOpen around t config
  let settings := stored.override given
  let state : State := { State.configure {} settings with configPath := config }
  let (s, printed) := readGrammar ⟨colors, around, state, t⟩ settings
  (s, { out := greeting colors } ++ printed)

inductive Turn where
  | next (s : Session) (printed : Printed)
  | leave (s : Session)

def turn (s : Session) (line : String) : Turn :=
  if (Word.ofText line).isEmpty then .next s {}
  else match Command.read line with
    | .error f => .next s (complaint s.colors f.headline)
    | .ok command =>
      let r := command.run s.colors s.state s.files
      let s := { s with state := r.state, files := r.files }
      match r.reply with
      | .ok (.said text) => .next s { out := text ++ "\n" }
      | .ok .silent => .next s {}
      | .ok .leave => .leave s
      | .error f => .next s (complaint s.colors f.report)

def turns : List String → Session → Session × Printed
  | [], s => (s, {})
  | line :: lines, s =>
    match s.turn line with
    | .leave s => (s, {})
    | .next s printed =>
      let (s, later) := turns lines s
      (s, printed ++ later)

def promptText (s : Session) : String :=
  let cyan := paint s.colors (.boldColored .brightCyan)
  match s.state.currentScope with
  | .ok scope =>
    cyan "phrase-trie" ++ "[" ++ paint s.colors (.colored .brightYellow) scope ++ "]> "
  | .error _ => cyan prompt

def history (s : Session) : History :=
  History.load { capacity := historyCapacity, skipsIndented := true } s.files (historyFile s.around)

def heard : List String → List String
  | [] => []
  | line :: lines =>
    match Command.read line with
    | .ok .exit => [line]
    | _ => line :: heard lines

/-- What a session knows of earlier lines at its end. Only lines that are typed are added, not those that
are piped in. -/
def remembered (s : Session) (typed : Bool) (lines : List String) : History :=
  if typed then (heard lines).foldl History.add s.history else s.history

def keepLines (s : Session) (h : History) : Session × Printed :=
  match h.save s.files (historyFile s.around) with
  | .ok t => ({ s with files := t }, {})
  | .error f =>
    (s, { err := warning s.colors ++ ": Failed to save history: " ++ f.message ++ "\n" })

def keepSettings (s : Session) : FileTree × Printed :=
  match s.state.saveSettings s.around s.files with
  | (t, .ok ()) => (t, {})
  | (t, .error f) =>
    (t, { err := warning s.colors ++ ": Failed to save config: " ++ f.headline ++ "\n" })

def close (s : Session) (h : History) : FileTree × Printed :=
  let (s, first) := s.keepLines h
  let (t, second) := s.keepSettings
  (t, first ++ second)

end Session
end Phrasebook.Shell
