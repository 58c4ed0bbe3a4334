import Phrasebook.Failure
import Phrasebook.Text.Lowercase

/-!
Finding out the format of a grammar file: a given format goes first, then what the file starts with,
then the extension of its name. A JSON grammar is an object, so its first visible byte is a brace.
-/

namespace Phrasebook
open Text (Bytes)

inductive Evidence where
  | content
  | extension
  | given
deriving DecidableEq

def Evidence.name : Evidence → String
  | .content => "content"
  | .extension => "file extension"
  | .given => "user specified"

structure Detection where
  format : Format
  evidence : Evidence
deriving DecidableEq

namespace Detection

def headerLength : Nat := 64

def isAsciiBlank (b : UInt8) : Bool :=
  b == 0x20 || b == 0x09 || b == 0x0a || b == 0x0c || b == 0x0d

def ofContent? (s : Bytes) : Option Format :=
  match (s.take headerLength).dropWhile isAsciiBlank with
  | [] => none
  | b :: _ => some (if b == 0x7b then .json else .binary)

def ofExtension (path : String) : Except Failure Format :=
  match Path.extension? path with
  | none => .error .noExtension
  | some extension =>
    let lower := Text.lowercase extension
    if lower = "json" then .ok .json
    else if lower = "bin" || lower = "bincode" then .ok .binary
    else .error (.unknownExtension extension)

def ofFile? (t : FileTree) (path : String) : Option Format :=
  match t.read path with
  | .ok s => ofContent? s
  | .error _ => none

end Detection

def detect (t : FileTree) (path : String) (given : Option Format) : Except Failure Detection :=
  match given with
  | some format => .ok ⟨format, .given⟩
  | none =>
    match Detection.ofFile? t path with
    | some format => .ok ⟨format, .content⟩
    | none => do .ok ⟨← Detection.ofExtension path, .extension⟩

end Phrasebook
