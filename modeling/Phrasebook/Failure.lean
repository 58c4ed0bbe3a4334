import Phrasebook.Format

/-!
Why a command fails. A failure names what could not be done and, where something is behind it, that
as well; `causes` tells them in this order.
-/

namespace Phrasebook

inductive CountFault where
  | empty
  | notDigit
  | tooLarge
deriving DecidableEq

def CountFault.message : CountFault → String
  | .empty => "cannot parse integer from empty string"
  | .notDigit => "invalid digit found in string"
  | .tooLarge => "number too large to fit in target type"

inductive Failure where
  | makeDirectory (path : String) (fault : FileFault)
  | settingsExtension (extension : Option String)
  | readSettings (path : String) (fault : FileFault)
  | parseSettings (path : String) (fault : Json.Fault)
  | writeSettings (path : String) (fault : FileFault)
  | noExtension
  | unknownExtension (extension : String)
  | noGrammarFile (path : String)
  | readGrammar (format : Format) (path : String) (fault : DocumentFault)
  | writeGrammar (path : String) (fault : DocumentFault)
  | invalidGrammar (path : String) (error : ScopeError)
  | noSuchScope (name : String)
  | noScopes
  | refused (error : ScopeError)
  | needsShell
  | emptyCommand
  | unknownCommand (name : String)
  | usage (text : String)
  | badLookahead (fault : CountFault)
  | badLimit (fault : CountFault)
  | badFormat (name : String)
  | nowhereToSave
deriving DecidableEq

namespace Failure

def causes : Failure → List String
  | .makeDirectory path fault => ["Failed to create directory: " ++ path, fault.message]
  | .settingsExtension (some extension) =>
    ["Config file must have .json extension, got ." ++ extension ++ ". Please use a .json file."]
  | .settingsExtension none =>
    ["Config file must have .json extension. Please add .json to the filename."]
  | .readSettings path fault => ["Failed to read config file: " ++ path, fault.message]
  | .parseSettings path fault => ["Failed to parse config file: " ++ path, fault.message]
  | .writeSettings path fault => ["Failed to write config file: " ++ path, fault.message]
  | .noExtension => ["No file extension"]
  | .unknownExtension extension => ["Unknown file extension: " ++ extension]
  | .noGrammarFile path =>
    ["Grammar file not found: " ++ path ++
      ". Pass --grammar or run 'phrase-trie settings --set-grammar <path>'."]
  | .readGrammar format path fault =>
    ("Failed to read " ++ format.name ++ " grammar: " ++ path) :: fault.causes
  | .writeGrammar path fault => ("Failed to write grammar: " ++ path) :: fault.causes
  | .invalidGrammar path error => ["Invalid grammar: " ++ path, error.message]
  | .noSuchScope name => ["Unknown scope: '" ++ name ++ "'"]
  | .noScopes => ["Grammar defines no scopes"]
  | .refused error => [error.message]
  | .needsShell => ["The REPL is started by the phrase-trie binary"]
  | .emptyCommand => ["Empty command"]
  | .unknownCommand name =>
    ["Unknown command: '" ++ name ++ "'. Type 'help' for available commands."]
  | .usage text => ["Usage: " ++ text]
  | .badLookahead fault => ["Invalid lookahead value", fault.message]
  | .badLimit fault => ["Invalid limit value", fault.message]
  | .badFormat name => ["Invalid format: '" ++ name ++ "'. Valid formats: json, bincode"]
  | .nowhereToSave => ["Usage: save <path> (no grammar file loaded)"]

def report (f : Failure) : String := String.intercalate ": " f.causes

def headline (f : Failure) : String := f.causes.headD ""

end Failure

def countLimit : Nat := Nat.pow 2 64

def readCount (s : String) : Except CountFault Nat :=
  match s.toList with
  | [] => .error .empty
  | ['+'] => .error .notDigit
  | '+' :: ds => digits 0 ds
  | ds => digits 0 ds
where
  digits (n : Nat) : List Char → Except CountFault Nat
    | [] => .ok n
    | c :: ds =>
      if !c.isDigit then .error .notDigit
      else if countLimit ≤ n * 10 + (c.toNat - 48) then .error .tooLarge
      else digits (n * 10 + (c.toNat - 48)) ds

end Phrasebook
