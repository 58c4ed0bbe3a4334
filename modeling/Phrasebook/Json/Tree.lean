import Phrasebook.Json.Token

/-!
JSON texts as trees, as far as they can be read. A flaw stands in the tree where it was met, after
everything before it, so whoever walks the tree in order meets what is wrong in the order of the
text.
-/

namespace Phrasebook.Json

inductive Ending where
  | closed
  | stopped (afterComma : Bool) (wanted skipped : Flaw)
deriving DecidableEq

inductive Tree where
  | null
  | bool (b : Bool)
  | number (n : Except Flaw Number)
  | string (s : Except Flaw String)
  | array (items : List Tree) (ending : Ending)
  | object (members : List (Except Flaw String × Tree)) (ending : Ending)
  /-- What is wrong where the value is wanted, where it is passed over, and where its first
  character decides what is read. -/
  | broken (wanted skipped chosen : Flaw)

instance : Inhabited Tree := ⟨.null⟩

namespace Tree

/-- A list or an object that is still open, with what it holds so far, last first, and with what
was read last in it: its start, an item or member, a comma, a key, or a key and its colon. -/
inductive Frame where
  | items
  | item (before : List Tree)
  | itemComma (before : List Tree)
  | members
  | member (before : List (Except Flaw String × Tree))
  | memberComma (before : List (Except Flaw String × Tree))
  | key (before : List (Except Flaw String × Tree)) (key : Except Flaw String)
  | colon (before : List (Except Flaw String × Tree)) (key : Except Flaw String)

namespace Frame

def heldItems : Frame → List Tree
  | item before | itemComma before => before
  | _ => []

def heldMembers : Frame → List (Except Flaw String × Tree)
  | member before | memberComma before | key before _ | colon before _ => before
  | _ => []

def add (t : Tree) (f : Frame) : Frame :=
  match f with
  | items | item _ | itemComma _ => item (t :: f.heldItems)
  | key before k | colon before k => member ((k, t) :: before)
  | members | member _ | memberComma _ => member f.heldMembers

def close (ending : Ending) (f : Frame) : Tree :=
  match f with
  | items | item _ | itemComma _ => .array f.heldItems.reverse ending
  | _ => .object f.heldMembers.reverse ending

def afterComma : Frame → Bool
  | itemComma _ | memberComma _ => true
  | _ => false

def unfinished (skipping : Bool) : Frame → Unfinished
  | items | item _ => .list
  | itemComma _ | colon _ _ => .value
  | memberComma _ => if skipping then .object else .value
  | members | member _ | key _ _ => .object

end Frame

def abandon (t : Tree) (stack : List Frame) : Tree :=
  stack.foldl (fun t f => (f.add t).close .closed) t

def stop (wanted skipped : Flaw) (f : Frame) (stack : List Frame) : Tree :=
  abandon (f.close (.stopped f.afterComma wanted skipped)) stack

def scalar? : Token → Option Tree
  | .null => some .null
  | .bool b => some (.bool b)
  | .number n => some (.number n)
  | .string s => some (.string s)
  | _ => none

/-- What one token does: it ends the first value, or it changes the open frames, or it is wrong. -/
inductive Move where
  | value (t : Tree)
  | on (stack : List Frame)
  | wrong (t : Tree)

def done (t : Tree) : List Frame → Move
  | [] => .value t
  | f :: stack => .on (f.add t :: stack)

def startValue (stack : List Frame) : Token → Move
  | .lbracket => .on (.items :: stack)
  | .lbrace => .on (.members :: stack)
  | .broken wanted skipped => .wrong (abandon (.broken wanted skipped (.first .noValue)) stack)
  | .brokenNull flaw => .wrong (abandon (.broken flaw flaw flaw) stack)
  | .brokenString wanted skipped => .wrong (abandon (.broken wanted skipped wanted) stack)
  | t =>
    match scalar? t with
    | some t => done t stack
    | none => .wrong (abandon (.broken (.first .noValue) (.first .noValue) (.first .noValue)) stack)

def startMember (f : Frame) (stack : List Frame) : Token → Move
  | .string key => .on (.key f.heldMembers key :: stack)
  | .brokenString wanted skipped => .wrong (stop wanted skipped f stack)
  | _ => .wrong (stop (.first .noKey) (.first .noKey) f stack)

def move (stack : List Frame) (t : Token) : Move :=
  match stack with
  | [] => startValue [] t
  | .items :: rest =>
    if t = .rbracket then done (Frame.items.close .closed) rest else startValue stack t
  | .item before :: rest =>
    if t = .rbracket then done ((Frame.item before).close .closed) rest
    else if t = .comma then .on (.itemComma before :: rest)
    else .wrong (stop (.first .noItemEnd) (.first .noItemEnd) (.item before) rest)
  | .itemComma before :: rest =>
    if t = .rbracket then
      .wrong (stop (.first .commaAtEnd) (.first .noValue) (.itemComma before) rest)
    else startValue stack t
  | .members :: rest =>
    if t = .rbrace then done (Frame.members.close .closed) rest else startMember .members rest t
  | .member before :: rest =>
    if t = .rbrace then done ((Frame.member before).close .closed) rest
    else if t = .comma then .on (.memberComma before :: rest)
    else .wrong (stop (.first .noMemberEnd) (.first .noMemberEnd) (.member before) rest)
  | .memberComma before :: rest =>
    if t = .rbrace then
      .wrong (stop (.first .commaAtEnd) (.first .noKey) (.memberComma before) rest)
    else startMember (.memberComma before) rest t
  | .key before key :: rest =>
    if t = .colon then .on (.colon before key :: rest)
    else
      .wrong (abandon (.broken (.first .noColon) (.first .noColon) (.first .noColon)) stack)
  | .colon _ _ :: _ => startValue stack t

def unread (what : Unfinished) : Tree := .broken (.early what) (.early what) (.early what)

def cutShort : List Frame → Tree
  | [] => unread .value
  | .key before key :: stack => abandon (unread .object) (.key before key :: stack)
  | .colon before key :: stack => abandon (unread .value) (.colon before key :: stack)
  | f :: stack => stop (.early (f.unfinished false)) (.early (f.unfinished true)) f stack

def readWith (stack : List Frame) : List Token → Tree × List Token
  | [] => (cutShort stack, [])
  | t :: ts =>
    match move stack t with
    | .value t => (t, ts)
    | .on stack => readWith stack ts
    | .wrong t => (t, [])

def read (ts : List Token) : Tree × List Token := readWith [] ts

end Tree
end Phrasebook.Json
