import Phrasebook.Text.Invisible

/-!
Quoted texts, as messages show them: between double quotes, with a backslash before a quote or a
backslash, a letter for the usual controls, and the code point in hexadecimal for every other
character that has no visible form of its own.
-/

namespace Phrasebook.Text

def hexDigits (n : Nat) : List Char := Nat.toDigits 16 n

def byNumber (c : Char) : List Char :=
  ['\\', 'u', '\x7b'] ++ hexDigits c.toNat ++ ['\x7d']

def quotedChar (c : Char) : List Char :=
  match c with
  | '\x00' => ['\\', '0']
  | '\t' => ['\\', 't']
  | '\r' => ['\\', 'r']
  | '\n' => ['\\', 'n']
  | '"' => ['\\', '"']
  | '\\' => ['\\', '\\']
  | c =>
    if c < ' ' || c == '\x7f' then byNumber c
    else if c < '\x80' then [c]
    else if isInvisible c then byNumber c
    else [c]

def quoted (s : String) : String :=
  String.ofList ('"' :: s.toList.flatMap quotedChar ++ ['"'])

end Phrasebook.Text
