import Phrasebook.CommandLine.Request
import Phrasebook.Consult
import Phrasebook.GrammarFile
import Phrasebook.Settings.Stored
import Phrasebook.Suggestion.Shown

/-!
Doing what a command line asks for. The outcome is what is printed, or why nothing is; settings that
cannot be read count as open, and what the command line gives goes before them.
-/

namespace Phrasebook.CommandLine
open Terminal (Colors Style paint)

def textOr (other : String) (value : Option Nat) : String :=
  match value with
  | some n => toString n
  | none => other

def configured (s : Surroundings) (t : FileTree) (settings : Settings) : Outcome GrammarFile :=
  (settings.grammarFile s t).andThen fun t path =>
    if t.pathExists path then .ofExcept t (GrammarFile.load t path settings.format)
    else .fail t (.noGrammarFile path)

def suggestText (colors : Colors) (d : Dictionary) (input : List String) (settings : Settings) :
    Except Failure String := do
  let scope ← d.chooseScope settings.scope
  let found ← d.consult scope (wordsOf input) (settings.lookahead.getD 0) settings.limit
  if found.isEmpty then .ok (paint colors (.colored .yellow) "No suggestions" ++ "\n")
  else
    let typed := String.intercalate " " input
    .ok (numbered "   " (found.map (Suggestion.shown colors typed)) ++ "\n" ++
      toString found.length ++ " suggestion(s) in scope " ++ paint colors (.colored .cyan) scope ++
      "\n")

def scopeText (colors : Colors) (d : Dictionary) (name : String) : Except Failure String := do
  let id ← d.findScope name
  .ok (paint colors .title name ++ "\n" ++
    String.join ((d.patterns id).map fun p => "  " ++ paint colors (.colored .green) p.text ++ "\n")
    ++ "\n")

def patternsText (colors : Colors) (d : Dictionary) : List String → Except Failure String
  | [] => .ok ""
  | name :: names => do
    let first ← scopeText colors d name
    .ok (first ++ (← patternsText colors d names))

def checkText (colors : Colors) (file : GrammarFile) : String :=
  let green (n : Nat) := paint colors (.colored .green) (toString n)
  paint colors .title "Grammar Information" ++ "\n\n" ++
    "  Path:     " ++ paint colors (.colored .cyan) file.path ++ "\n" ++
    "  Format:   " ++ paint colors (.colored .green) file.detection.format.name ++
    " (detected via " ++ paint colors (.colored .yellow) file.detection.evidence.name ++ ")\n" ++
    "  Scopes:   " ++ green file.dictionary.scopes.length ++ "\n" ++
    "  Patterns: " ++ green file.grammar.patternCount ++ "\n" ++
    "  Nodes:    " ++ green file.dictionary.nodeCount ++ "\n\n" ++
    String.join (file.grammar.scopes.entries.map fun s =>
      "    " ++ paint colors (.colored .cyan) s.1 ++ " (" ++ toString s.2.length ++ " pattern(s))\n")

def convertText (colors : Colors) (input output : String) (source target : Format) : String :=
  let side (path : String) (format : Format) :=
    paint colors (.colored .cyan) path ++ " (" ++ paint colors (.colored .green) format.name ++ ")"
  "Converted " ++ side input source ++ " -> " ++ side output target ++ "\n"

def settingsText (colors : Colors) (s : Settings) : String :=
  let unset := paint colors .dimmed "(unset)"
  paint colors .title "Settings" ++ "\n\n" ++
    "  Grammar:   " ++ (s.grammarPath.map (paint colors (.colored .cyan))).getD unset ++ "\n" ++
    "  Format:    " ++ (s.format.map Format.name).getD unset ++ "\n" ++
    "  Scope:     " ++ s.scope.getD unset ++ "\n" ++
    "  Lookahead: " ++ textOr "0" s.lookahead ++ "\n" ++
    "  Limit:     " ++ textOr "none" s.limit ++ "\n"

def convert (colors : Colors) (t : FileTree) (input output : String)
    (source target : Option Format) : Outcome String :=
  match GrammarFile.load t input source with
  | .error f => .fail t f
  | .ok file =>
    let target := target.getD (Format.ofPath output)
    (GrammarFile.save file.grammar t output target).andThen fun t () =>
      .ok t (convertText colors input output file.detection.format target)

namespace Changes

def isNone (c : Changes) : Bool := c = {}

/-- A new grammar brings the format of its name with it. -/
def apply (c : Changes) (s : Settings) : Settings :=
  let s := if c.reset then {} else s
  { grammarPath := c.grammarPath <|> s.grammarPath
    format := c.grammarPath.map Format.ofPath <|> s.format
    scope := c.scope <|> s.scope
    lookahead := c.lookahead <|> s.lookahead
    limit := c.limit <|> s.limit }

end Changes

def changeSettings (colors : Colors) (s : Surroundings) (t : FileTree) (config : Option String)
    (stored : Settings) (changes : Changes) : Outcome String :=
  let new := changes.apply stored
  if changes.isNone then .ok t (settingsText colors new)
  else (new.save s t config).andThen fun t () =>
    .ok t (paint colors (.colored .green) "Settings saved" ++ "\n\n" ++ settingsText colors new)

def run (colors : Colors) (s : Surroundings) (t : FileTree) (call : Invocation) : Outcome String :=
  let (t, stored) := Settings.loadOrOpen s t call.config
  match call.request with
  | .shell _ => .fail t .needsShell
  | .suggest input given =>
    let settings := stored.override given
    (configured s t settings).andThen fun t file =>
      .ofExcept t (suggestText colors file.dictionary input settings)
  | .patterns scope given =>
    (configured s t (stored.override given)).andThen fun t file =>
      .ofExcept t (patternsText colors file.dictionary
        (match scope with | some name => [name] | none => file.dictionary.names))
  | .check given =>
    let settings := stored.override given
    (settings.grammarFile s t).andThen fun t path =>
      .ofExcept t ((GrammarFile.load t path settings.format).map (checkText colors))
  | .convert input output source target => convert colors t input output source target
  | .settings changes => changeSettings colors s t call.config stored changes

end Phrasebook.CommandLine
