import Phrasebook.Text.Split
import Phrasebook.Text.Utf8

/-!
The lines of a text, and of bytes that may be none. A line ends in a line feed, which may follow a
carriage return; what is left after the last line feed is a line unless it is empty.
-/

namespace Phrasebook.Text

def trimReturn (line : List Char) : List Char :=
  match line.getLast? with
  | some '\r' => line.dropLast
  | _ => line

def linesOfPieces : List (List Char) → List (List Char)
  | [] => []
  | [last] => if last.isEmpty then [] else [last]
  | line :: rest => trimReturn line :: linesOfPieces rest

def lines (text : String) : List String :=
  (linesOfPieces (pieces '\n' text.toList)).map String.ofList

def byteLines : Bytes → List Bytes
  | [] => []
  | 0x0d :: 0x0a :: s | 0x0a :: s => [] :: byteLines s
  | b :: s =>
    match byteLines s with
    | [] => [[b]]
    | line :: rest => (b :: line) :: rest

end Phrasebook.Text
