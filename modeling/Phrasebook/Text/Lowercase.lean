import Phrasebook.Text.CaseTable

/-!
Lower case for any text: letter by letter, except that a capital sigma at the end of a word becomes
a final sigma and the dotted capital I becomes two characters.
-/

namespace Phrasebook.Text

def inRanges (ranges : List (Nat × Nat)) (c : Char) : Bool :=
  ranges.any fun r => r.1 ≤ c.toNat && c.toNat ≤ r.2

def isCased (c : Char) : Bool :=
  if c < '\x80' then c.isAlpha else inRanges casedRanges c

def isCaseIgnorable (c : Char) : Bool :=
  if c < '\x80' then c == '\x27' || c == '.' || c == ':' || c == '^' || c == '\x60'
  else inRanges caseIgnorableRanges c

def lowerChar (c : Char) : List Char :=
  if c < '\x80' then [c.toLower]
  else if c == '\u0130' then ['i', '\u0307']
  else
    let n := c.toNat
    match caseRuns.find? fun r => r.first ≤ n && n ≤ r.last && (n - r.first) % r.step == 0 with
    | some r => [Char.ofNat (n + r.shift).toNat]
    | none => [c]

def meetsCased (s : List Char) : Bool :=
  match s.dropWhile isCaseIgnorable with
  | [] => false
  | c :: _ => isCased c

/-- `before` is what precedes `s`, nearest character first. -/
def lowerFrom (before : List Char) : List Char → List Char
  | [] => []
  | c :: rest =>
    (if c == '\u03a3' && meetsCased before && !meetsCased rest then ['\u03c2'] else lowerChar c) ++
      lowerFrom (c :: before) rest

def lowercase (s : String) : String := String.ofList (lowerFrom [] s.toList)

end Phrasebook.Text
