import Phrasebook.Shell.Verb
import Phrasebook.Terminal.Style
import Phrasebook.Text.Lowercase

/-!
The help texts of the shell.
-/

namespace Phrasebook.Shell
open Terminal (Colors paint)

structure Topic where
  usage : String
  description : String

def Verb.topic? : Verb → Option Topic
  | .suggest => some ⟨"suggest <words...>",
    "Lists every completion of the input in the current scope. The last\n" ++
    "  word may be partial. Lookups stay as <alias> placeholders unless\n" ++
    "  lookahead is set."⟩
  | .walks => some ⟨"match <words...>",
    "Lists every walk of the input through the scope with the depth of\n" ++
    "  its lookup stack and how many tokens it left unconsumed."⟩
  | .define => some ⟨"define <scope> [pattern ; pattern ...]",
    "Registers a new scope. Patterns are separated by ';' and may\n" ++
    "  reference the scope itself."⟩
  | .add => some ⟨"add <scope> <pattern>",
    "Adds a pattern to an existing scope. Every context a lookup names\n" ++
    "  must already be defined."⟩
  | .remove => some ⟨"remove <scope> <pattern>",
    "Pattern removal is not supported; the grammar is left unchanged."⟩
  | .lookahead => some ⟨"lookahead [n]",
    "Sets how many words may be spent replacing lookup placeholders\n" ++
    "  with concrete patterns from their contexts. 0 keeps placeholders."⟩
  | .load => some ⟨"load <path> [json|bincode]",
    "Replaces the grammar with the one stored at <path>."⟩
  | .save => some ⟨"save [path]",
    "Writes the grammar; the format follows the file extension."⟩
  | _ => none

def topicHelp (colors : Colors) (name : String) : String :=
  match (Verb.named? (Text.lowercase name)).bind Verb.topic? with
  | some topic =>
    paint colors .bold "Usage:" ++ "\n  " ++ paint colors (.colored .cyan) topic.usage ++ "\n\n" ++
      paint colors .bold "Description:" ++ "\n  " ++ topic.description
  | none => "No help for '" ++ name ++ "'. Type 'help' for all commands."

def generalHelp (colors : Colors) : String :=
  paint colors .title "phrase-trie REPL - Interactive Grammar Explorer" ++ "\n\n" ++
  paint colors .bold "Queries:" ++ "\n" ++
  "  suggest, s <words...>         Suggest completions for the input\n" ++
  "  match, m <words...>           Show how the input walks the scope\n\n" ++
  paint colors .bold "Grammar:" ++ "\n" ++
  "  define <scope> [p1 ; p2 ...]  Create a scope with optional patterns\n" ++
  "  add <scope> <pattern>         Add a pattern to a scope\n" ++
  "  remove <scope> <pattern>      Remove a pattern (not supported)\n" ++
  "  scopes                        List scopes\n" ++
  "  patterns, dump [scope]        List the patterns of a scope\n\n" ++
  paint colors .bold "Configuration:" ++ "\n" ++
  "  scope, use [name]             Show or switch the queried scope\n" ++
  "  lookahead, la [n]             Words available for resolving lookups\n" ++
  "  limit <n>                     Set result limit (0 or 'none' to remove)\n" ++
  "  settings                      Show current settings\n\n" ++
  paint colors .bold "Files:" ++ "\n" ++
  "  load <path> [json|bincode]    Load grammar from file\n" ++
  "  save [path]                   Save grammar to file\n" ++
  "  stats, info                   Show grammar statistics\n\n" ++
  paint colors .bold "Utility:" ++ "\n" ++
  "  help, ? [command]             Show this help or help for specific command\n" ++
  "  exit, quit                    Exit REPL\n\n" ++
  paint colors .bold "Examples:" ++ "\n" ++
  "  phrase-trie> define devices fan ; kitchen light\n" ++
  "  phrase-trie> define main turn on <device:devices>\n" ++
  "  phrase-trie> s turn o\n" ++
  "  phrase-trie> lookahead 2\n" ++
  "  phrase-trie> s turn on\n\n" ++
  "Pattern syntax: words separated by spaces, lookups as <alias:ctx1|ctx2>\n" ++
  "or <ctx> (alias and context share a name)."

end Phrasebook.Shell
