import Phrasebook.Failure
import Phrasebook.Shell.Verb
import Phrasebook.Text.Lowercase

/-!
Shell commands as they are typed: a name in any case, then arguments between blanks.
-/

namespace Phrasebook.Shell
open Text (pieces trim)

inductive Command where
  | suggest (input : List String)
  | walks (input : List String)
  | add (scope pattern : String)
  | define (scope : String) (patterns : List String)
  | remove (scope pattern : String)
  | scope (name : Option String)
  | scopes
  | patterns (scope : Option String)
  | lookahead (value : Option Nat)
  | limit (value : Option Nat)
  | load (path : String) (format : Option Format)
  | save (path : Option String)
  | stats
  | settings
  | help (topic : Option String)
  | exit
deriving DecidableEq

def parts (line : String) : List String := (Word.ofText line).map (·.text)

def spaced (words : List String) : String := String.intercalate " " words

namespace Command

def patternList (text : String) : List String :=
  (((pieces ';' text.toList).map trim).filter (!·.isEmpty)).map String.ofList

/-- A limit of zero, or `none`, is no limit. -/
def readLimit : List String → Except Failure (Option Nat)
  | [] => .ok none
  | s :: _ =>
    if Text.lowercase s = "none" || s = "0" then .ok none
    else match readCount s with
      | .ok n => .ok (some n)
      | .error fault => .error (.badLimit fault)

def readLookahead : List String → Except Failure (Option Nat)
  | [] => .ok none
  | s :: _ =>
    match readCount s with
    | .ok n => .ok (some n)
    | .error fault => .error (.badLookahead fault)

def readFormat : List String → Except Failure (Option Format)
  | [] => .ok none
  | s :: _ =>
    let name := Text.lowercase s
    if name = "json" then .ok (some .json)
    else if name = "bincode" || name = "bin" then .ok (some .binary)
    else .error (.badFormat name)

def ofArguments (args : List String) : Verb → Except Failure Command
  | .suggest => .ok (.suggest args)
  | .walks => .ok (.walks args)
  | .add =>
    match args with
    | name :: first :: rest => .ok (.add name (spaced (first :: rest)))
    | _ => .error (.usage "add <scope> <pattern>")
  | .define =>
    match args with
    | name :: rest => .ok (.define name (patternList (spaced rest)))
    | [] => .error (.usage "define <scope> [pattern ; pattern ...]")
  | .remove =>
    match args with
    | name :: first :: rest => .ok (.remove name (spaced (first :: rest)))
    | _ => .error (.usage "remove <scope> <pattern>")
  | .scope => .ok (.scope args.head?)
  | .scopes => .ok .scopes
  | .patterns => .ok (.patterns args.head?)
  | .lookahead => do .ok (.lookahead (← readLookahead args))
  | .limit => do .ok (.limit (← readLimit args))
  | .load =>
    match args with
    | path :: rest => do .ok (.load path (← readFormat rest))
    | [] => .error (.usage "load <path> [json|bincode]")
  | .save => .ok (.save args.head?)
  | .stats => .ok .stats
  | .settings => .ok .settings
  | .help => .ok (.help args.head?)
  | .exit => .ok .exit

def read (line : String) : Except Failure Command :=
  match parts line with
  | [] => .error .emptyCommand
  | first :: args =>
    let name := Text.lowercase first
    match Verb.named? name with
    | some verb => ofArguments args verb
    | none => .error (.unknownCommand name)

def changesGrammar : Command → Bool
  | add .. | define .. | load .. => true
  | _ => false

end Command
end Phrasebook.Shell
