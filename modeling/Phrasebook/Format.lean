import Phrasebook.Grammar.Binary
import Phrasebook.Grammar.Stop
import Phrasebook.FileTree

/-!
The two formats of grammar files, and grammars in files of either format.
-/

namespace Phrasebook
open Text (Bytes)

inductive Format where
  | json
  | binary
deriving DecidableEq

namespace Format

def name : Format → String
  | .json => "json"
  | .binary => "bincode"

def extension : Format → String
  | .json => "json"
  | .binary => "bin"

def named? (name : String) : Option Format :=
  if name = "json" then some .json else if name = "bincode" then some .binary else none

def ofPath (path : String) : Format :=
  if Path.extension? path = some "bin" then .binary else .json

end Format

inductive DocumentFault where
  | json (fault : Json.Fault) (position : Option Json.Position)
  | binary (fault : Binary.Fault)
  | file (fault : FileFault)
  | pattern (error : PatternError)
deriving DecidableEq

namespace DocumentFault

def jsonText (fault : Json.Fault) : Option Json.Position → String
  | some position => fault.message ++ position.describe
  | none => fault.message

def causes : DocumentFault → List String
  | .json fault position => ["JSON error: " ++ jsonText fault position, jsonText fault position]
  | .binary fault => ["Bincode error: " ++ fault.message, fault.message]
  | .file fault => ["I/O error: " ++ fault.message, fault.message]
  | .pattern error => ["Invalid pattern: " ++ error.message, error.message]

end DocumentFault

namespace Grammar

def encode (g : Grammar) : Format → Bytes
  | .json => Text.utf8 g.jsonText
  | .binary => g.binary

def decode (format : Format) (s : Bytes) : Except DocumentFault Grammar :=
  match format with
  | .json =>
    match ofJsonBytes s with
    | .ok g => .ok g
    | .error f => .error (.json f (position? s f))
  | .binary =>
    match ofBinary s with
    | .ok g => .ok g
    | .error (.layout f) => .error (.binary f)
    | .error (.pattern e) => .error (.pattern e)

/-- A directory can be opened like a file, but nothing can be read from it. -/
def unreadable (fault : FileFault) : Format → DocumentFault
  | .json => .json (.unreadable fault.message) none
  | .binary => .binary (.unreadable fault.message)

def load (t : FileTree) (path : String) (format : Format) : Except DocumentFault Grammar :=
  match t.read path with
  | .ok s => decode format s
  | .error .isDirectory => .error (unreadable .isDirectory format)
  | .error f => .error (.file f)

def save (g : Grammar) (t : FileTree) (path : String) (format : Format) :
    Except DocumentFault FileTree :=
  match t.write path (g.encode format) with
  | .ok t => .ok t
  | .error f => .error (.file f)

end Grammar
end Phrasebook
