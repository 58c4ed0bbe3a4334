import Phrasebook.CommandLine.Shape
import Phrasebook.Settings

/-!
What a command line asks for. A command line names one command; what stands before the name applies to
every command, what stands after it is read as that command describes. The place of the settings may
be told before or after the name, and the later telling counts.
-/

namespace Phrasebook.CommandLine

structure Changes where
  grammarPath : Option String := none
  scope : Option String := none
  lookahead : Option Nat := none
  limit : Option Nat := none
  reset : Bool := false
deriving DecidableEq

inductive Request where
  | shell (given : Settings)
  | suggest (input : List String) (given : Settings)
  | patterns (scope : Option String) (given : Settings)
  | check (given : Settings)
  | convert (input output : String) (source target : Option Format)
  | settings (changes : Changes)
deriving DecidableEq

structure Invocation where
  config : Option String
  request : Request
deriving DecidableEq

inductive Verb where
  | shell
  | suggest
  | patterns
  | check
  | convert
  | settings
deriving DecidableEq

namespace Verb

def name : Verb → String
  | shell => "repl"
  | suggest => "suggest"
  | patterns => "patterns"
  | check => "check"
  | convert => "convert"
  | settings => "settings"

def all : List Verb := [shell, suggest, patterns, check, convert, settings]

def named? (name : String) : Option Verb := all.find? fun v => v.name = name

end Verb

def taking (name : String) (short : Option Char) (kind : ValueKind) : OptionShape :=
  ⟨name, short, .value kind⟩

def everywhere : List OptionShape :=
  [taking "config" (some 'c') .path, ⟨"verbose", some 'v', .flag⟩, ⟨"help", some 'h', .help⟩]

def rootShape : Shape := ⟨everywhere ++ [⟨"version", some 'V', .version⟩], []⟩

def grammarOption : OptionShape := taking "grammar" (some 'g') .path

def formatOption : OptionShape := taking "format" (some 'f') .format

def queryOptions : List OptionShape :=
  [grammarOption, formatOption, taking "scope" (some 's') .text,
    taking "lookahead" (some 'a') .count, taking "limit" (some 'l') .count]

def Verb.shape : Verb → Shape
  | .shell => ⟨everywhere ++ queryOptions, []⟩
  | .suggest => ⟨everywhere ++ queryOptions, [{ name := "input", kind := .text, many := true }]⟩
  | .patterns =>
    ⟨everywhere ++ [grammarOption, formatOption], [{ name := "scope", kind := .text }]⟩
  | .check => ⟨everywhere ++ [formatOption], [{ name := "grammar", kind := .path }]⟩
  | .convert =>
    ⟨everywhere ++ [taking "from-format" none .format, taking "to-format" none .format],
      [{ name := "input", kind := .path, required := true },
        { name := "output", kind := .path, required := true }]⟩
  | .settings =>
    ⟨everywhere ++ [taking "set-grammar" none .path, taking "set-scope" none .text,
      taking "set-lookahead" none .count, taking "set-limit" none .count,
      ⟨"reset", none, .flag⟩], []⟩

namespace Reading

def value? (r : Reading) (name : String) : Option String := (r.values name).head?

def count? (r : Reading) (name : String) : Option Nat := do
  (readCount (← r.value? name)).toOption

def format? (r : Reading) (name : String) : Option Format := do Format.named? (← r.value? name)

def settings (r : Reading) : Settings where
  grammarPath := r.value? "grammar"
  format := r.format? "format"
  scope := r.value? "scope"
  lookahead := r.count? "lookahead"
  limit := r.count? "limit"

def request (r : Reading) : Verb → Request
  | .shell => .shell r.settings
  | .suggest => .suggest (r.values "input") r.settings
  | .patterns => .patterns (r.value? "scope") { r.settings with scope := none }
  | .check => .check r.settings
  | .convert =>
    .convert ((r.value? "input").getD "") ((r.value? "output").getD "") (r.format? "from-format")
      (r.format? "to-format")
  | .settings =>
    .settings {
      grammarPath := r.value? "set-grammar"
      scope := r.value? "set-scope"
      lookahead := r.count? "set-lookahead"
      limit := r.count? "set-limit"
      reset := r.isGiven "reset" }

end Reading

def helpName : String := "help"

def isCommand (word : String) : Bool := word = helpName || (Verb.named? word).isSome

def helpFault : List String → UsageFault
  | [] => .displayHelp
  | [topic] => if isCommand topic then .displayHelp else .invalidSubcommand
  | _ => .invalidSubcommand

/-- An option starts with a dash; a dash alone does not. -/
def isDashed (word : String) : Bool :=
  match word.toList with
  | '-' :: _ :: _ => true
  | _ => false

def readHead : List String → Reading → Except UsageFault (Reading × Option (Verb × List String))
  | [], r => .ok (r, none)
  | w :: ws, r =>
    if r.trailing then .error (if isCommand w then .unknownArgument else .invalidSubcommand)
    else if r.awaiting || isDashed w then do readHead ws (← r.word rootShape w)
    else if w = helpName then .error (helpFault ws)
    else match Verb.named? w with
      | some v => .ok (r, some (v, ws))
      | none => .error .invalidSubcommand

def Invocation.read (words : List String) : Except UsageFault Invocation := do
  let (head, command) ← readHead words {}
  match command with
  | none =>
    let head ← head.settle
    .error (if head.given.isEmpty then .displayHelpOnMissing else .missingSubcommand)
  | some (verb, rest) =>
    let r ← CommandLine.read verb.shape rest
    let head ← head.settle
    .ok ⟨r.value? "config" <|> head.value? "config", r.request verb⟩

end Phrasebook.CommandLine
