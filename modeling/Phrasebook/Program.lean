import Phrasebook.Shell.Session
import Phrasebook.Text.Lines

/-!
The whole program: it reads its command line, does what is asked or holds a shell session, and ends
with a code that tells whether it failed. What is printed in answer to a wrong command line is worded
here.
-/

namespace Phrasebook
open CommandLine (Invocation Request UsageFault)
open Shell (Session Printed)
open Terminal (Colors)

structure Ending where
  code : Nat
  printed : Printed
  files : FileTree

namespace Program

def usageText : String :=
  "Usage: phrase-trie [OPTIONS] <COMMAND>\n\n" ++
  "Commands: repl, suggest, patterns, check, convert, settings, help\n\n" ++
  "Options:\n" ++
  "  -c, --config <CONFIG>\n" ++
  "  -v, --verbose\n" ++
  "  -h, --help\n" ++
  "  -V, --version\n"

def refuse (t : FileTree) : UsageFault → Ending
  | .displayVersion => ⟨0, { out := "phrase-trie " ++ Shell.version ++ "\n" }, t⟩
  | .displayHelp => ⟨0, { out := usageText }, t⟩
  | .displayHelpOnMissing => ⟨2, { err := usageText }, t⟩
  | fault => ⟨2, { err := "error: " ++ fault.message ++ "\n\n" ++ usageText }, t⟩

def command (colors : Colors) (around : Surroundings) (t : FileTree) (call : Invocation) : Ending :=
  match CommandLine.run colors around t call with
  | (t, .ok text) => ⟨0, { out := text }, t⟩
  | (t, .error f) => ⟨1, Shell.complaint colors f.report, t⟩

def shell (colors : Colors) (around : Surroundings) (t : FileTree) (config : Option String)
    (given : Settings) (typed : Bool) (lines : List String) : Ending :=
  let (s, first) := Session.start colors around t config given
  let history := s.remembered typed lines
  let (s, middle) := Session.turns lines s
  let (t, last) := s.close history
  ⟨0, first ++ middle ++ last, t⟩

def run (colors : Colors) (around : Surroundings) (t : FileTree) (words : List String) (typed : Bool)
    (input : String) : Ending :=
  match Invocation.read words with
  | .error fault => refuse t fault
  | .ok ⟨config, .shell given⟩ => shell colors around t config given typed (Text.lines input)
  | .ok call => command colors around t call

end Program
end Phrasebook
