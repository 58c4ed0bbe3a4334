import Phrasebook.Json.Tree

/-!
JSON values, as read from a text and as written to one. Members of an object keep the order of the
text, repeated names included.
-/

namespace Phrasebook

inductive Json where
  | null
  | bool (b : Bool)
  | number (n : Json.Number)
  | string (s : String)
  | array (items : List Json)
  | object (members : List (String × Json))

instance : Inhabited Json := ⟨.null⟩

namespace Json

def int (n : Int) : Json := .number (.int n)

def depthLimit : Nat := 127

def Ending.wanted : Ending → Except Flaw Unit
  | .closed => .ok ()
  | .stopped _ wanted _ => .error wanted

def Ending.skipped : Ending → Except Flaw Unit
  | .closed => .ok ()
  | .stopped _ _ skipped => .error skipped

/-- The end of a list where nothing is wanted any more; `rest` is what is still there. A comma is
already too much, and only a bracket right behind it is told apart. -/
def Ending.after {α : Type} (ending : Ending) (rest : List α) : Except Flaw Unit :=
  match rest, ending with
  | [], .closed => .ok ()
  | [], .stopped false (.early what) _ => .error (.early what)
  | [], .stopped false _ _ => .error (.first .tooMuch)
  | [], .stopped true (.wrong .commaAtEnd reach) _ => .error (.wrong .commaAtEnd reach)
  | _, _ => .error (.wrong .tooMuch .behind)

namespace Tree

mutual

/-- The value of a tree that may be nested `depth` deep, or the first flaw in it. -/
def value (depth : Nat) : Tree → Except Flaw Json
  | .null => .ok .null
  | .bool b => .ok (.bool b)
  | .number n => .number <$> n
  | .string s => .string <$> s
  | .array items ending =>
    match depth with
    | 0 => .error (.first .tooDeep)
    | depth + 1 => do
      let items ← values depth items
      ending.wanted
      .ok (.array items)
  | .object members ending =>
    match depth with
    | 0 => .error (.first .tooDeep)
    | depth + 1 => do
      let members ← memberValues depth members
      ending.wanted
      .ok (.object members)
  | .broken wanted _ _ => .error wanted

def values (depth : Nat) : List Tree → Except Flaw (List Json)
  | [] => .ok []
  | t :: ts => do
    let v ← value depth t
    .ok (v :: (← values depth ts))

def memberValues (depth : Nat) : List (Except Flaw String × Tree) → Except Flaw (List (String × Json))
  | [] => .ok []
  | (key, t) :: ms => do
    let key ← key
    let v ← value depth t
    .ok ((key, v) :: (← memberValues depth ms))

end

mutual

def skip : Tree → Except Flaw Unit
  | .array items ending => do skipAll items; ending.skipped
  | .object members ending => do skipMembers members; ending.skipped
  | .broken _ skipped _ => .error skipped
  | _ => .ok ()

def skipAll : List Tree → Except Flaw Unit
  | [] => .ok ()
  | t :: ts => do skip t; skipAll ts

def skipMembers : List (Except Flaw String × Tree) → Except Flaw Unit
  | [] => .ok ()
  | (_, t) :: ms => do skip t; skipMembers ms

end

mutual

def ofValue : Json → Tree
  | .null => .null
  | .bool b => .bool b
  | .number n => .number (.ok n)
  | .string s => .string (.ok s)
  | .array items => .array (ofValues items) .closed
  | .object members => .object (ofMembers members) .closed

def ofValues : List Json → List Tree
  | [] => []
  | v :: vs => ofValue v :: ofValues vs

def ofMembers : List (String × Json) → List (Except Flaw String × Tree)
  | [] => []
  | (key, v) :: ms => (.ok key, ofValue v) :: ofMembers ms

end

end Tree

def ofBytes (s : Text.Bytes) : Except Flaw Json :=
  match Tree.read (tokens s) with
  | (t, rest) => do
    let v ← t.value depthLimit
    if rest.isEmpty then .ok v else .error (.first .tooMuch)

end Json
end Phrasebook
