import Phrasebook.Error
import Phrasebook.Json.Value

/-!
Why a JSON document is not what was asked for: it is no JSON, it cannot be read at all, or it is
well formed and of the wrong shape.
-/

namespace Phrasebook.Json

inductive Found where
  | null
  | bool (b : Bool)
  | int (n : Int)
  | float (x : Double)
  | string (s : String)
  | sequence
  | map
deriving DecidableEq

def Found.describe : Found → String
  | .null => "null"
  | .bool b => "boolean \x60" ++ (if b then "true" else "false") ++ "\x60"
  | .int n => "integer \x60" ++ toString n ++ "\x60"
  | .float x => "floating point \x60" ++ x.render ++ "\x60"
  | .string s => "string " ++ Text.quoted s
  | .sequence => "sequence"
  | .map => "map"

inductive Fault where
  | flaw (f : Flaw)
  | unreadable (reason : String)
  | wrongType (found : Found) (expected : String)
  | wrongValue (found : Found) (expected : String)
  | wrongLength (length : Nat) (expected : String)
  | missingField (name : String)
  | duplicateField (name : String)
  | unknownVariant (name : String) (known : String)
  | noVariant (type : String)
  | pattern (error : PatternError)
deriving DecidableEq

def Fault.message : Fault → String
  | .flaw f => f.message
  | .unreadable reason => reason
  | .wrongType found expected => "invalid type: " ++ found.describe ++ ", expected " ++ expected
  | .wrongValue found expected => "invalid value: " ++ found.describe ++ ", expected " ++ expected
  | .wrongLength length expected =>
    "invalid length " ++ toString length ++ ", expected " ++ expected
  | .missingField name => "missing field \x60" ++ name ++ "\x60"
  | .duplicateField name => "duplicate field \x60" ++ name ++ "\x60"
  | .unknownVariant name known => "unknown variant \x60" ++ name ++ "\x60, expected " ++ known
  | .noVariant type => "data did not match any variant of untagged enum " ++ type
  | .pattern error => error.message

def liftFlaw {α : Type} : Except Flaw α → Except Fault α
  | .ok a => .ok a
  | .error f => .error (.flaw f)

namespace Tree

def foundNumber : Number → Found
  | .int n => .int n
  | .float x => .float x

/-- What stands here, once it has been read so far that its kind is certain. -/
def found : Tree → Except Flaw Found
  | .null => .ok .null
  | .bool b => .ok (.bool b)
  | .number n => foundNumber <$> n
  | .string s => .string <$> s
  | .array .. => .ok .sequence
  | .object .. => .ok .map
  | .broken wanted _ _ => .error wanted

def mismatch {α : Type} (t : Tree) (expected : String) : Except Fault α :=
  match t.found with
  | .ok found => .error (.wrongType found expected)
  | .error f => .error (.flaw f)

end Tree
end Phrasebook.Json
