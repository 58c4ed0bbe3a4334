import Phrasebook.Json.Token

/-!
Positions in a JSON text, as lines and bytes of the line, and how far a text has been read when some of
its tokens have been taken.
-/

namespace Phrasebook.Json
open Text (Bytes)

structure Position where
  line : Nat
  column : Nat
deriving DecidableEq

namespace Position

def advance (p : Position) (b : UInt8) : Position :=
  if b == 0x0a then ⟨p.line + 1, 0⟩ else ⟨p.line, p.column + 1⟩

def behind (s : Bytes) : Position := s.foldl advance ⟨1, 0⟩

def describe (p : Position) : String :=
  " at line " ++ toString p.line ++ " column " ++ toString p.column

end Position

def dropToken (s : Bytes) : Bytes :=
  match s.dropWhile isSpace with
  | [] => []
  | b :: s => (scan b s).2

def dropTokens : Nat → Bytes → Bytes
  | 0, s => s
  | n + 1, s => dropTokens n (dropToken s)

def dropByte (s : Bytes) : Bytes := (s.dropWhile isSpace).drop 1

/-- The least number from `low` to `high` at which `p` holds, for a `p` that goes on to hold; `high` if
there is none below it. -/
def leastFrom (p : Nat → Bool) (low high : Nat) : Nat :=
  if low < high then
    let middle := (low + high) / 2
    if p middle then leastFrom p low middle else leastFrom p (middle + 1) high
  else high
termination_by high - low

end Phrasebook.Json
