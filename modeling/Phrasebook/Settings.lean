import Phrasebook.Format

/-!
The settings a user keeps: which grammar to use, in which format, which scope to ask, how far to look
ahead and how many results to show. Each may be left open.
-/

namespace Phrasebook

structure Settings where
  grammarPath : Option String := none
  format : Option Format := none
  scope : Option String := none
  lookahead : Option Nat := none
  limit : Option Nat := none
deriving DecidableEq

namespace Settings
open Json (Ending Fault Flaw Found Tree liftFlaw)

/-- What is given now goes before what is stored. -/
def override (stored given : Settings) : Settings where
  grammarPath := given.grammarPath <|> stored.grammarPath
  format := given.format <|> stored.format
  scope := given.scope <|> stored.scope
  lookahead := given.lookahead <|> stored.lookahead
  limit := given.limit <|> stored.limit

def orNull {α : Type} (f : α → Json) : Option α → Json
  | some a => f a
  | none => .null

def toJson (s : Settings) : Json :=
  .object [
    ("grammar_path", orNull .string s.grammarPath),
    ("format", orNull (fun f => .string f.name) s.format),
    ("scope", orNull .string s.scope),
    ("lookahead", orNull (fun n => .int n) s.lookahead),
    ("limit", orNull (fun n => .int n) s.limit)]

/-- What settings are read from: a text, in which an object is taken in the order of the text, or a
value. They differ in how a misplaced item is reported. -/
inductive Source where
  | text
  | value

def stringOf (expected : String) : Tree → Except Fault (Option String)
  | .null => .ok none
  | .string s => some <$> liftFlaw s
  | t => t.mismatch expected

def countOf : Tree → Except Fault (Option Nat)
  | .null => .ok none
  | .number (.ok (.int n)) =>
    if 0 ≤ n then .ok (some n.toNat) else .error (.wrongValue (.int n) "usize")
  | t => t.mismatch "usize"

def formatNamed (name : String) : Except Fault Format :=
  match Format.named? name with
  | some f => .ok f
  | none => .error (.unknownVariant name "\x60json\x60 or \x60bincode\x60")

def endOfMember {α : Type} (rest : List α) (ending : Ending) : Except Flaw Unit :=
  match rest, ending with
  | [], .closed => .ok ()
  | [], .stopped false (.early what) _ => .error (.early what)
  | _, _ => .error (.first .noValue)

def missingMember : Ending → Flaw
  | .closed | .stopped _ (.wrong .noKey _) _ => .first .noValue
  | .stopped _ (.early .object) _ => .early .value
  | .stopped _ wanted _ => wanted

/-- A format may also be the name of an object's only member, if its value is null. -/
def formatMember (source : Source) (key : Except Flaw String) (t : Tree)
    (rest : List (Except Flaw String × Tree)) (ending : Ending) : Except Fault (Option Format) :=
  match source, rest with
  | .value, _ :: _ => .error (.wrongValue .map "map with a single key")
  | _, _ => do
    let f ← formatNamed (← liftFlaw key)
    match t with
    | .null =>
      liftFlaw (endOfMember rest ending)
      .ok (some f)
    | t => t.mismatch "unit"

def formatOf (source : Source) : Tree → Except Fault (Option Format)
  | .null => .ok none
  | .string s => do .ok (some (← formatNamed (← liftFlaw s)))
  | .object ((key, t) :: rest) ending => formatMember source key t rest ending
  | .object [] ending =>
    match source with
    | .text => .error (.flaw (missingMember ending))
    | .value => .error (.wrongValue .map "map with a single key")
  | t =>
    match source, t with
    | .text, .broken _ _ chosen => .error (.flaw chosen)
    | .text, _ => .error (.flaw (.first .noValue))
    | .value, t => t.mismatch "string or map"

inductive Field where
  | grammarPath
  | format
  | scope
  | lookahead
  | limit
deriving DecidableEq

namespace Field

def all : List Field := [grammarPath, format, scope, lookahead, limit]

def name : Field → String
  | grammarPath => "grammar_path"
  | format => "format"
  | scope => "scope"
  | lookahead => "lookahead"
  | limit => "limit"

def named? (name : String) : Option Field := all.find? fun f => f.name = name

def read (source : Source) (f : Field) (t : Tree) (s : Settings) : Except Fault Settings :=
  match f with
  | grammarPath => do .ok { s with grammarPath := ← stringOf "path string" t }
  | format => do .ok { s with format := ← formatOf source t }
  | scope => do .ok { s with scope := ← stringOf "a string" t }
  | lookahead => do .ok { s with lookahead := ← countOf t }
  | limit => do .ok { s with limit := ← countOf t }

end Field

def readMembers (source : Source) (seen : List Field) :
    List (Except Flaw String × Tree) → Settings → Except Fault Settings
  | [], s => .ok s
  | (key, t) :: ms, s => do
    match Field.named? (← liftFlaw key) with
    | none =>
      liftFlaw t.skip
      readMembers source seen ms s
    | some f =>
      if f ∈ seen then .error (.duplicateField f.name)
      else readMembers source (f :: seen) ms (← f.read source t s)

def readItems (source : Source) (count : Nat) (ending : Ending) :
    List Field → List Tree → Settings → Except Fault Settings
  | [], rest, s =>
    match source, rest with
    | .value, _ :: _ => .error (.wrongLength count "fewer elements in array")
    | _, rest => do
      liftFlaw (ending.after rest)
      .ok s
  | _ :: _, [], s => do
    liftFlaw ending.wanted
    .ok s
  | f :: fs, t :: ts, s => do readItems source count ending fs ts (← f.read source t s)

def ofTree (source : Source) : Tree → Except Fault Settings
  | .object members ending => do
    let s ← readMembers source [] members {}
    liftFlaw ending.wanted
    .ok s
  | .array items ending => readItems source items.length ending Field.all items {}
  | t => t.mismatch "struct PersistentConfig"

def ofText (text : String) : Except Fault Settings := do
  let (t, rest) := Tree.read (Json.tokens (Phrasebook.Text.utf8 text))
  let s ← ofTree .text t
  if rest.isEmpty then .ok s else .error (.flaw (.first .tooMuch))

def ofJson (v : Json) : Except Fault Settings := ofTree .value (Tree.ofValue v)

end Settings
end Phrasebook
