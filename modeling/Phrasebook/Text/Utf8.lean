/-!
Texts as bytes. `decode` reads the longest valid beginning and says where and how it breaks off:
inside a sequence that no text holds, or at the end of the bytes in the middle of a character.
-/

namespace Phrasebook.Text

abbrev Bytes := List UInt8

def encode (s : List Char) : Bytes := s.flatMap String.utf8EncodeChar

def utf8 (s : String) : Bytes := encode s.toList

inductive Utf8Fault where
  /-- The `length` bytes at `index` start no character. -/
  | invalid (length index : Nat)
  /-- The bytes end inside the character that starts at `index`. -/
  | incomplete (index : Nat)
deriving DecidableEq

def Utf8Fault.message : Utf8Fault → String
  | .invalid length index =>
    "invalid utf-8 sequence of " ++ toString length ++ " bytes from index " ++ toString index
  | .incomplete index => "incomplete utf-8 byte sequence from index " ++ toString index

def isTail (b : UInt8) : Bool := 0x80 ≤ b && b ≤ 0xbf

/-- Whether `b` may follow `a` at the start of a character of three or four bytes. -/
def isSecond (a b : UInt8) : Bool :=
  isTail b && !(a == 0xe0 && b < 0xa0) && !(a == 0xed && 0xa0 ≤ b) &&
    !(a == 0xf0 && b < 0x90) && !(a == 0xf4 && 0x90 ≤ b)

def tailBits (b : UInt8) : Nat := b.toNat % 64

def decodeFrom (index : Nat) : Bytes → Except Utf8Fault (List Char)
  | [] => .ok []
  | a :: s =>
    if a < 0x80 then (Char.ofNat a.toNat :: ·) <$> decodeFrom (index + 1) s
    else if a < 0xc2 || 0xf4 < a then .error (.invalid 1 index)
    else match s with
    | [] => .error (.incomplete index)
    | b :: s =>
      if !isSecond a b then .error (.invalid 1 index)
      else if a < 0xe0 then
        (Char.ofNat (a.toNat % 32 * 64 + tailBits b) :: ·) <$> decodeFrom (index + 2) s
      else match s with
      | [] => .error (.incomplete index)
      | c :: s =>
        if !isTail c then .error (.invalid 2 index)
        else if a < 0xf0 then
          (Char.ofNat ((a.toNat % 16 * 64 + tailBits b) * 64 + tailBits c) :: ·) <$>
            decodeFrom (index + 3) s
        else match s with
        | [] => .error (.incomplete index)
        | d :: s =>
          if !isTail d then .error (.invalid 3 index)
          else
            (Char.ofNat (((a.toNat % 8 * 64 + tailBits b) * 64 + tailBits c) * 64 + tailBits d) :: ·)
              <$> decodeFrom (index + 4) s

def decode (bytes : Bytes) : Except Utf8Fault (List Char) := decodeFrom 0 bytes

def decode? (bytes : Bytes) : Option String :=
  match decode bytes with
  | .ok s => some (String.ofList s)
  | .error _ => none

end Phrasebook.Text
