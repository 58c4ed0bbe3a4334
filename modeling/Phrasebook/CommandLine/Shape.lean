import Phrasebook.Failure

/-!
Reading the words of a command line against a description of what may stand there: options with a
letter or a long name, with or without a value, and values told by their position. A value may be
joined to its option or follow it; after two dashes alone everything is told by position.
-/

namespace Phrasebook.CommandLine

inductive UsageFault where
  | unknownArgument
  | invalidSubcommand
  | valueValidation
  | invalidValue
  | tooManyValues
  | argumentConflict
  | missingRequiredArgument
  | missingSubcommand
  | displayHelp
  | displayVersion
  | displayHelpOnMissing
deriving DecidableEq

def UsageFault.message : UsageFault → String
  | .unknownArgument => "unexpected argument"
  | .invalidSubcommand => "unrecognized subcommand"
  | .valueValidation | .invalidValue => "invalid value for an argument"
  | .tooManyValues => "unexpected value for a flag"
  | .argumentConflict => "an argument cannot be used multiple times"
  | .missingRequiredArgument => "required arguments were not provided"
  | .missingSubcommand => "a subcommand is required but one was not provided"
  | .displayHelp | .displayHelpOnMissing => "help"
  | .displayVersion => "version"

inductive ValueKind where
  | path
  | text
  | count
  | format
deriving DecidableEq

def ValueKind.check (kind : ValueKind) (value : String) : Except UsageFault Unit :=
  match kind with
  | .path => if value.isEmpty then .error .invalidValue else .ok ()
  | .text => .ok ()
  | .count =>
    match readCount value with
    | .ok _ => .ok ()
    | .error _ => .error .valueValidation
  | .format => if (Format.named? value).isSome then .ok () else .error .invalidValue

inductive Action where
  | value (kind : ValueKind)
  | flag
  | help
  | version

structure OptionShape where
  name : String
  short : Option Char
  action : Action

structure Positional where
  name : String
  kind : ValueKind
  required : Bool := false
  many : Bool := false

structure Shape where
  options : List OptionShape
  positionals : List Positional := []

namespace Shape

def long? (s : Shape) (name : List Char) : Option OptionShape :=
  s.options.find? fun o => o.name.toList = name

def short? (s : Shape) (c : Char) : Option OptionShape :=
  s.options.find? fun o => o.short = some c

end Shape

structure Pending where
  name : String
  kind : ValueKind
  many : Bool
  values : List String

/-- What has been read so far. `awaiting` says that the next word is the value of the pending
option, `filling` that it may be one more value of the pending position. -/
structure Reading where
  given : List (String × List String) := []
  pending : Option Pending := none
  awaiting : Bool := false
  filling : Bool := false
  position : Nat := 0
  trailing : Bool := false

namespace Reading

def values (r : Reading) (name : String) : List String := (r.given.lookup name).getD []

def isGiven (r : Reading) (name : String) : Bool := (r.given.lookup name).isSome

def put (r : Reading) (name : String) (values : List String) : Reading :=
  { r with given := (name, values) :: r.given.filter fun g => g.1 ≠ name }

def checkAll (kind : ValueKind) : List String → Except UsageFault Unit
  | [] => .ok ()
  | v :: vs => do kind.check v; checkAll kind vs

/-- Takes in the pending values. Only a position with many values may be told again. -/
def settle (r : Reading) : Except UsageFault Reading :=
  match r.pending with
  | none => .ok r
  | some p =>
    let r := { r with pending := none }
    if p.values.isEmpty then .error .invalidValue
    else if r.isGiven p.name && !p.many then .error .argumentConflict
    else do
      checkAll p.kind p.values
      .ok (r.put p.name (r.values p.name ++ p.values))

def option (r : Reading) (o : OptionShape) (value : Option String) : Except UsageFault Reading :=
  match o.action, value with
  | .value kind, some v => do
    let r ← r.settle
    let r := { r with awaiting := false, filling := false }
    { r with pending := some ⟨o.name, kind, false, [v]⟩ }.settle
  | .value kind, none => do
    let r ← r.settle
    .ok { r with pending := some ⟨o.name, kind, false, []⟩, awaiting := true, filling := false }
  | .flag, none => do
    let r ← r.settle
    if r.isGiven o.name then .error .argumentConflict
    else .ok { r.put o.name [] with awaiting := false, filling := false }
  | .help, none => do
    let _ ← r.settle
    .error .displayHelp
  | .version, none => do
    let _ ← r.settle
    .error .displayVersion
  | _, some _ => .error .tooManyValues

/-- Letters after one dash: flags, up to an option that takes the rest as its value. -/
def letters (shape : Shape) : List Char → Reading → Except UsageFault Reading
  | [], r => .ok r
  | c :: rest, r =>
    match shape.short? c with
    | none => .error .unknownArgument
    | some o =>
      match o.action, rest with
      | .value _, [] => r.option o none
      | .value _, '=' :: value => r.option o (some (String.ofList value))
      | .value _, value => r.option o (some (String.ofList value))
      | _, rest => do letters shape rest (← r.option o none)

def positional (shape : Shape) (r : Reading) (word : String) : Except UsageFault Reading :=
  match shape.positionals[r.position]? with
  | none => .error .unknownArgument
  | some p => do
    let goesOn := p.many && match r.pending with | some q => q.name == p.name | none => false
    let r ← if goesOn then .ok r else r.settle
    let before := match r.pending with | some q => q.values | none => []
    .ok { r with
      pending := some ⟨p.name, p.kind, p.many, before ++ [word]⟩
      awaiting := false
      filling := p.many
      position := if p.many then r.position else r.position + 1 }

def word (shape : Shape) (r : Reading) (w : String) : Except UsageFault Reading :=
  if r.trailing then r.positional shape w
  else match w.toList with
    | ['-', '-'] => .ok { r with trailing := true }
    | '-' :: '-' :: rest =>
      let (name, value) :=
        match Text.halves? '=' rest with
        | some (name, value) => (name, some (String.ofList value))
        | none => (rest, none)
      match shape.long? name with
      | none => .error .unknownArgument
      | some o => r.option o value
    | '-' :: c :: rest => letters shape (c :: rest) r
    | _ =>
      match r.awaiting, r.pending with
      | true, some p =>
        .ok { r with pending := some { p with values := p.values ++ [w] }, awaiting := false }
      | _, _ => r.positional shape w

def all (shape : Shape) : List String → Reading → Except UsageFault Reading
  | [], r => r.settle
  | w :: ws, r => do all shape ws (← r.word shape w)

end Reading

def read (shape : Shape) (words : List String) : Except UsageFault Reading := do
  let r ← Reading.all shape words {}
  if shape.positionals.any fun p => p.required && !r.isGiven p.name then
    .error .missingRequiredArgument
  else .ok r

end Phrasebook.CommandLine
