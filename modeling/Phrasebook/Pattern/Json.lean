import Phrasebook.Json.Fault
import Phrasebook.Pattern.Text

/-!
Patterns as JSON values. A word is a string; a lookup is an object with a member for each alias, one
context alone or a list of them; a pattern is the list of its elements. A pattern may also be read
from its written form.
-/

namespace Phrasebook

def Lookup.contextsJson : List String → Json
  | [name] => .string name
  | names => .array (names.map .string)

def Lookup.toJson (l : Lookup) : Json :=
  .object (l.aliases.entries.map fun b => (b.1, contextsJson b.2))

def Element.toJson : Element → Json
  | .word w => .string w.text
  | .lookup l => l.toJson

def Pattern.toJson (p : Pattern) : Json := .array (p.elements.map Element.toJson)

def Json.string? : Json → Option String
  | .string s => some s
  | _ => none

namespace Lookup

def contextsOfJson? : Json → Option (List String)
  | .string name => some [name]
  | .array items => items.mapM Json.string?
  | _ => none

def ofMembers? (members : List (String × Json)) : Option Lookup := do
  let bindings ← members.mapM fun m => (contextsOfJson? m.2).map (m.1, ·)
  let l : Lookup := ⟨.ofList bindings⟩
  match l.check with
  | .ok () => some l
  | .error _ => none

end Lookup

def Element.ofJson? : Json → Option Element
  | .string s =>
    match Word.ofString s with
    | .ok w => some (.word w)
    | .error _ => none
  | .object members => Element.lookup <$> Lookup.ofMembers? members
  | _ => none

def Pattern.ofJson : Json → Except Json.Fault Pattern
  | .string s =>
    match Pattern.ofText s with
    | .ok p => .ok p
    | .error e => .error (.pattern e)
  | .array items =>
    match items.mapM Element.ofJson? with
    | some elements => .ok ⟨elements⟩
    | none => .error (.noVariant "PatternRepr")
  | _ => .error (.noVariant "PatternRepr")

end Phrasebook
