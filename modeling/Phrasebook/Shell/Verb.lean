/-!
The names of shell commands. A command has one main name and may have shorter ones.
-/

namespace Phrasebook.Shell

inductive Verb where
  | suggest
  | walks
  | add
  | define
  | remove
  | scope
  | scopes
  | patterns
  | lookahead
  | limit
  | load
  | save
  | stats
  | settings
  | help
  | exit
deriving DecidableEq

namespace Verb

def name : Verb → String
  | suggest => "suggest"
  | walks => "match"
  | add => "add"
  | define => "define"
  | remove => "remove"
  | scope => "scope"
  | scopes => "scopes"
  | patterns => "patterns"
  | lookahead => "lookahead"
  | limit => "limit"
  | load => "load"
  | save => "save"
  | stats => "stats"
  | settings => "settings"
  | help => "help"
  | exit => "exit"

def otherNames : Verb → List String
  | suggest => ["s"]
  | walks => ["m"]
  | add => ["insert"]
  | define => ["def"]
  | remove => ["rm"]
  | scope => ["use"]
  | patterns => ["dump", "list"]
  | lookahead => ["la"]
  | stats => ["info"]
  | settings => ["set"]
  | help => ["?"]
  | exit => ["quit"]
  | _ => []

def names (v : Verb) : List String := v.name :: v.otherNames

def all : List Verb :=
  [suggest, walks, add, define, remove, scope, scopes, patterns, lookahead, limit, load, save,
    stats, settings, help, exit]

def named? (name : String) : Option Verb := all.find? fun v => name ∈ v.names

def offered : List String := all.map name ++ exit.otherNames

def takesScope : Verb → Bool
  | add | define | remove | scope | patterns => true
  | _ => false

end Verb
end Phrasebook.Shell
