/-!
What is wrong with a text that is no JSON, and how far it has been read when that is told.
-/

namespace Phrasebook.Json

inductive Unfinished where
  | value
  | list
  | object
  | string
deriving DecidableEq

/-- An escape may be bad for its letter or for its digits. A code unit that is half of a pair may come
without the other half, or before something that cannot be the other half. -/
inductive Defect where
  | noValue
  | noName
  | noColon
  | noItemEnd
  | noMemberEnd
  | noKey
  | commaAtEnd
  | tooMuch
  | tooDeep
  | badNumber
  | tooLarge
  | badLetter
  | badDigits
  | badText
  | control
  | loneHalf
  | openHalf
deriving DecidableEq

/-- How far a text has been read: some bytes of the token that shows the defect, or, behind that token,
up to the next byte that is no space. -/
inductive Reach where
  | within (bytes : Nat)
  | behind
deriving DecidableEq

inductive Flaw where
  | early (what : Unfinished)
  | wrong (defect : Defect) (reach : Reach)
deriving DecidableEq

def Unfinished.message : Unfinished → String
  | .value => "EOF while parsing a value"
  | .list => "EOF while parsing a list"
  | .object => "EOF while parsing an object"
  | .string => "EOF while parsing a string"

def Defect.message : Defect → String
  | .noValue => "expected value"
  | .noName => "expected ident"
  | .noColon => "expected \x60:\x60"
  | .noItemEnd => "expected \x60,\x60 or \x60]\x60"
  | .noMemberEnd => "expected \x60,\x60 or \x60\x7d\x60"
  | .noKey => "key must be a string"
  | .commaAtEnd => "trailing comma"
  | .tooMuch => "trailing characters"
  | .tooDeep => "recursion limit exceeded"
  | .badNumber => "invalid number"
  | .tooLarge => "number out of range"
  | .badLetter | .badDigits => "invalid escape"
  | .badText => "invalid unicode code point"
  | .control => "control character (\\u0000-\\u001F) found while parsing a string"
  | .loneHalf => "lone leading surrogate in hex escape"
  | .openHalf => "unexpected end of hex escape"

namespace Flaw

def message : Flaw → String
  | .early what => what.message
  | .wrong defect _ => defect.message

def first (defect : Defect) : Flaw := .wrong defect (.within 1)

def upTo (bytes : Nat) (defect : Defect) : Flaw := .wrong defect (.within bytes)

end Flaw
end Phrasebook.Json
