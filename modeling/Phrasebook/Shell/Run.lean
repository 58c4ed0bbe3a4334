import Phrasebook.CommandLine.Run
import Phrasebook.Shell.Command
import Phrasebook.Shell.Help
import Phrasebook.Shell.State

/-!
What a shell command does. A command that fails leaves the state as it was.
-/

namespace Phrasebook.Shell
open Terminal (Colors Color Style paint)

inductive Reply where
  | said (text : String)
  | silent
  | leave
deriving DecidableEq

structure Result where
  state : State
  files : FileTree
  reply : Except Failure Reply

namespace Result

def say (s : State) (t : FileTree) (text : String) : Result := ⟨s, t, .ok (.said text)⟩

def fail (s : State) (t : FileTree) (f : Failure) : Result := ⟨s, t, .error f⟩

def tell (s : State) (t : FileTree) : Except Failure String → Result
  | .ok text => say s t text
  | .error f => fail s t f

end Result

def suggestText (colors : Colors) (s : State) (input : List String) : Except Failure String := do
  let found ← s.suggest input
  if found.isEmpty then .ok (paint colors (.colored .yellow) "No suggestions")
  else .ok (numbered "  " (found.map (Suggestion.shown colors (spaced input))) ++
    toString found.length ++ " suggestion(s)")

def walkText (colors : Colors) (m : Nat × Nat) : String :=
  "stack depth " ++ toString m.1 ++ ", " ++
    if m.2 = 0 then paint colors (.colored .green) "complete"
    else paint colors (.colored .yellow) (toString m.2 ++ " token(s) left")

def walksText (colors : Colors) (s : State) (input : List String) : Except Failure String := do
  let found ← s.walks input
  if found.isEmpty then .ok (paint colors (.colored .yellow) "No matches")
  else .ok (numbered "  " (found.map (walkText colors)) ++ toString found.length ++ " match(es)")

def scopesText (colors : Colors) (s : State) : String :=
  let row (id : ScopeId) (name : String) :=
    let marker := if s.currentScope.toOption = some name then "*" else " "
    " " ++ paint colors (.boldColored .green) marker ++ " " ++ paint colors (.colored .cyan) name ++
      " (" ++ toString (s.dictionary.patterns id).length ++ " pattern(s))\n"
  String.join (s.dictionary.names.zipIdx.map fun n => row n.2 n.1) ++
    toString s.dictionary.scopes.length ++ " scope(s)"

def patternsText (colors : Colors) (s : State) (scope : Option String) : Except Failure String := do
  let name ← match scope with
    | some name => .ok name
    | none => s.currentScope
  let patterns := s.dictionary.patterns (← s.dictionary.findScope name)
  .ok (paint colors .title name ++ "\n" ++
    String.join (patterns.map fun p => "  " ++ paint colors (.colored .green) p.text ++ "\n") ++
    toString patterns.length ++ " pattern(s)")

def statsText (colors : Colors) (s : State) : String :=
  let green (n : Nat) := paint colors (.colored .green) (toString n)
  paint colors .title "Grammar Statistics" ++
    "\n  Scopes:   " ++ green s.dictionary.scopes.length ++
    "\n  Patterns: " ++ green s.grammar.patternCount ++
    "\n  Nodes:    " ++ green s.dictionary.nodeCount

def settingsText (colors : Colors) (s : State) : String :=
  paint colors .title "Current Settings" ++
    "\n  Scope:     " ++
      paint colors (.colored .cyan) (s.currentScope.toOption.getD "(none)") ++
    "\n  Lookahead: " ++ paint colors (.colored .green) (toString s.lookahead) ++
    "\n  Limit:     " ++
      paint colors (.colored .green) (CommandLine.textOr "none" s.limit) ++
    "\n  Format:    " ++ paint colors (.colored .green) s.format.name ++
    "\n  Grammar:   " ++ paint colors (.colored .cyan) (s.grammarPath.getD "(unsaved)")

def addPattern (colors : Colors) (s : State) (t : FileTree) (scope pattern : String) : Result :=
  match s.dictionary.find scope >>= fun id => s.dictionary.add id (.written pattern) with
  | .error e => .fail s t (.refused e)
  | .ok d =>
    .say { s with dictionary := d } t
      ("Added " ++ paint colors (.colored .green) pattern ++ " to " ++
        paint colors (.colored .cyan) scope)

def defineScope (colors : Colors) (s : State) (t : FileTree) (scope : String)
    (patterns : List String) : Result :=
  match s.dictionary.define scope (patterns.map .written) with
  | .error e => .fail s t (.refused e)
  | .ok d =>
    .say { s with dictionary := d } t
      ("Defined " ++ paint colors (.colored .cyan) scope ++ " with " ++
        paint colors (.boldColored .green) (toString patterns.length) ++ " pattern(s)")

def removePattern (s : State) (t : FileTree) (scope pattern : String) : Result :=
  match s.dictionary.find scope >>= fun id => s.dictionary.remove id (.written pattern) with
  | .error e => .fail s t (.refused e)
  | .ok d => ⟨{ s with dictionary := d }, t, .ok .silent⟩

def selectScope (colors : Colors) (s : State) (t : FileTree) (name : String) : Result :=
  match s.dictionary.findScope name with
  | .error f => .fail s t f
  | .ok _ =>
    .say { s with scope := some name } t ("Scope set to " ++ paint colors (.colored .cyan) name)

def loadGrammar (colors : Colors) (s : State) (t : FileTree) (path : String) (format : Option Format) :
    Result :=
  match GrammarFile.load t path format with
  | .error f => .fail s t f
  | .ok file =>
    .say (s.adopt file) t
      ("Loaded " ++ paint colors (.boldColored .green) (toString file.grammar.patternCount) ++
        " pattern(s) in " ++
        paint colors (.colored .green) (toString file.dictionary.scopes.length) ++
        " scope(s) from " ++ paint colors (.colored .cyan) path)

/-- Saves where it is told to, else where the grammar came from; the format is that of the name. -/
def saveGrammar (colors : Colors) (s : State) (t : FileTree) (path : Option String) : Result :=
  match path <|> s.grammarPath with
  | none => .fail s t .nowhereToSave
  | some path =>
    match GrammarFile.save s.grammar t path (Format.ofPath path) with
    | (t, .error f) => .fail s t f
    | (t, .ok ()) =>
      .say { s with grammarPath := some path } t
        ("Saved grammar to " ++ paint colors (.colored .cyan) path)

def Command.run (colors : Colors) (s : State) (t : FileTree) : Command → Result
  | .suggest input => .tell s t (suggestText colors s input)
  | .walks input => .tell s t (walksText colors s input)
  | .add name pattern => addPattern colors s t name pattern
  | .define name texts => defineScope colors s t name texts
  | .remove name pattern => removePattern s t name pattern
  | .scope none =>
    .tell s t (s.currentScope.map fun name =>
      "Current scope: " ++ paint colors (.colored .cyan) name)
  | .scope (some name) => selectScope colors s t name
  | .scopes => .say s t (scopesText colors s)
  | .patterns name => .tell s t (patternsText colors s name)
  | .lookahead value =>
    let s := { s with lookahead := value.getD s.lookahead }
    .say s t ("Lookahead: " ++ paint colors (.colored .green) (toString s.lookahead))
  | .limit value =>
    .say { s with limit := value } t
      ("Result limit: " ++ paint colors (.colored .green) (CommandLine.textOr "none" value))
  | .load path format => loadGrammar colors s t path format
  | .save path => saveGrammar colors s t path
  | .stats => .say s t (statsText colors s)
  | .settings => .say s t (settingsText colors s)
  | .help none => .say s t (generalHelp colors)
  | .help (some topic) => .say s t (topicHelp colors topic)
  | .exit => ⟨s, t, .ok .leave⟩

end Phrasebook.Shell
