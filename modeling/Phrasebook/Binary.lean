import Phrasebook.Text.Utf8

/-!
A fixed-width binary layout: numbers little end first, in eight bytes or in four for a tag; a text or
a list is its length followed by its bytes or items. What follows the value read is not looked at.
-/

namespace Phrasebook.Binary
open Text (Bytes Utf8Fault)

inductive Fault where
  | short
  | badText (fault : Utf8Fault)
  | badTag (tag : Nat) (known : Nat)
  | unreadable (reason : String)
deriving DecidableEq

def Fault.message : Fault → String
  | .short => "io error: failed to fill whole buffer"
  | .badText fault => "string is not valid utf8: " ++ fault.message
  | .badTag tag known =>
    "invalid value: integer \x60" ++ toString tag ++ "\x60, expected variant index 0 <= i < " ++
      toString known
  | .unreadable reason => "io error: " ++ reason

def littleEnd : (width : Nat) → Nat → Bytes
  | 0, _ => []
  | width + 1, n => UInt8.ofNat (n % 256) :: littleEnd width (n / 256)

def ofLittleEnd : Bytes → Nat
  | [] => 0
  | b :: s => b.toNat + 256 * ofLittleEnd s

def putLength (n : Nat) : Bytes := littleEnd 8 n

def putTag (n : Nat) : Bytes := littleEnd 4 n

def putText (s : String) : Bytes := putLength (Text.utf8 s).length ++ Text.utf8 s

def putList {α : Type} (put : α → Bytes) (l : List α) : Bytes :=
  putLength l.length ++ l.flatMap put

abbrev Reader (α : Type) := Bytes → Except Fault (α × Bytes)

def take (n : Nat) : Reader Bytes := fun s =>
  if s.length < n then .error .short else .ok (s.take n, s.drop n)

def number (width : Nat) : Reader Nat := fun s => do
  let (digits, rest) ← take width s
  .ok (ofLittleEnd digits, rest)

def length : Reader Nat := number 8

def tag : Reader Nat := number 4

def text : Reader String := fun s => do
  let (n, s) ← length s
  let (bytes, rest) ← take n s
  match Text.decode bytes with
  | .ok cs => .ok (String.ofList cs, rest)
  | .error f => .error (.badText f)

def times {α : Type} (item : Reader α) : Nat → Reader (List α)
  | 0, s => .ok ([], s)
  | n + 1, s => do
    let (a, s) ← item s
    let (as, s) ← times item n s
    .ok (a :: as, s)

def list {α : Type} (item : Reader α) : Reader (List α) := fun s => do
  let (n, s) ← length s
  times item n s

def both {α β : Type} (first : Reader α) (second : Reader β) : Reader (α × β) := fun s => do
  let (a, s) ← first s
  let (b, s) ← second s
  .ok ((a, b), s)

end Phrasebook.Binary
