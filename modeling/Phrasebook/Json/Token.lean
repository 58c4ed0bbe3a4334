import Phrasebook.Json.Flaw
import Phrasebook.Json.Number
import Phrasebook.Text.Utf8

/-!
The tokens of a JSON text. A token that cannot be read ends the list and says what is wrong with it;
what is wrong may depend on whether its value is wanted or skipped. A string that is well formed but
denotes no text, and a number that is too large, are only wrong where their value is wanted.
-/

namespace Phrasebook.Json
open Text (Bytes)

instance decidableEqExcept {ε α : Type} [DecidableEq ε] [DecidableEq α] : DecidableEq (Except ε α)
  | .ok a, .ok b => decidable_of_iff (a = b) (by rw [Except.ok.injEq])
  | .error e, .error f => decidable_of_iff (e = f) (by rw [Except.error.injEq])
  | .ok _, .error _ => .isFalse nofun
  | .error _, .ok _ => .isFalse nofun

inductive Token where
  | lbrace
  | rbrace
  | lbracket
  | rbracket
  | comma
  | colon
  | null
  | bool (b : Bool)
  | number (n : Except Flaw Number)
  | string (s : Except Flaw String)
  | broken (wanted skipped : Flaw)
  | brokenNull (flaw : Flaw)
  | brokenString (wanted skipped : Flaw)
deriving DecidableEq

def isSpace (b : UInt8) : Bool := b == 0x20 || b == 0x0a || b == 0x0d || b == 0x09

def isDigit (b : UInt8) : Bool := 0x30 ≤ b && b ≤ 0x39

def digit (b : UInt8) : Nat := b.toNat - 0x30

def hexValue? (b : UInt8) : Option Nat :=
  if isDigit b then some (digit b)
  else if 0x61 ≤ b && b ≤ 0x66 then some (b.toNat - 0x61 + 10)
  else if 0x41 ≤ b && b ≤ 0x46 then some (b.toNat - 0x41 + 10)
  else none

/-- One item between the quotes: a byte as it stands or after a backslash, or a code unit given by its
number. -/
inductive Piece where
  | byte (b : UInt8)
  | escape (b : UInt8)
  | unit (n : Nat)

def Piece.width : Piece → Nat
  | .byte _ => 1
  | .escape _ => 2
  | .unit _ => 6

def escaped? (b : UInt8) : Option UInt8 :=
  if b == 0x22 || b == 0x5c || b == 0x2f then some b
  else if b == 0x62 then some 0x08
  else if b == 0x66 then some 0x0c
  else if b == 0x6e then some 0x0a
  else if b == 0x72 then some 0x0d
  else if b == 0x74 then some 0x09
  else none

structure Quotation where
  pieces : List Piece
  rest : Except Flaw Bytes

namespace Quotation

def flawed (f : Flaw) : Quotation := ⟨[], .error f⟩

def cons (p : Piece) (q : Quotation) : Quotation := { q with pieces := p :: q.pieces }

def read (n : Nat) : Bytes → Quotation
  | [] => flawed (.early .string)
  | 0x22 :: s => ⟨[], .ok s⟩
  | [0x5c] => flawed (.early .string)
  | 0x5c :: 0x75 :: a :: b :: c :: d :: s =>
    match hexValue? a, hexValue? b, hexValue? c, hexValue? d with
    | some a, some b, some c, some d =>
      (read (n + 6) s).cons (.unit (((a * 16 + b) * 16 + c) * 16 + d))
    | _, _, _, _ => flawed (.upTo (n + 6) .badDigits)
  | 0x5c :: e :: s =>
    if e = 0x75 then flawed (.early .string)
    else match escaped? e with
      | some b => (read (n + 2) s).cons (.escape b)
      | none => flawed (.upTo (n + 2) .badLetter)
  | b :: s =>
    if b < 0x20 then flawed (.upTo (n + 1) .control) else (read (n + 1) s).cons (.byte b)

end Quotation

def isLead (n : Nat) : Bool := 0xd800 ≤ n && n ≤ 0xdbff

def isTrail (n : Nat) : Bool := 0xdc00 ≤ n && n ≤ 0xdfff

def pair (lead trail : Nat) : Nat := (lead - 0xd800) * 0x400 + (trail - 0xdc00) + 0x10000

/-- The bytes of the pieces, which start where `n` bytes of the token have been read. Half of a pair of
code units is no text, unless nothing follows yet. -/
def assemble (n : Nat) : List Piece → Except Flaw Bytes
  | [] => .ok []
  | .byte b :: ps => (b :: ·) <$> assemble (n + 1) ps
  | .escape b :: ps => (b :: ·) <$> assemble (n + 2) ps
  | .unit u :: ps =>
    if isTrail u then .error (.upTo (n + 6) .loneHalf)
    else if isLead u then
      match ps with
      | [] => .ok []
      | .unit m :: ps =>
        if isTrail m then
          (String.utf8EncodeChar (Char.ofNat (pair u m)) ++ ·) <$> assemble (n + 12) ps
        else .error (.upTo (n + 12) .loneHalf)
      | p :: _ => .error (.upTo (n + 6 + p.width) .openHalf)
    else (String.utf8EncodeChar (Char.ofNat u) ++ ·) <$> assemble (n + 6) ps

def endsInLead (ps : List Piece) : Bool :=
  match ps.getLast? with
  | some (.unit n) => isLead n
  | _ => false

namespace Quotation

def width (q : Quotation) : Nat := q.pieces.foldl (· + ·.width) 1

def text (q : Quotation) : Except Flaw String := do
  let bytes ← assemble 1 q.pieces
  if endsInLead q.pieces then .error (.upTo (q.width + 1) .openHalf)
  else match Text.decode? bytes with
    | some s => .ok s
    | none => .error (.upTo (q.width + 1) .badText)

/-- What is told of the flaw that ends the pieces. Behind half of a pair, only the other half is looked
for. -/
def told (q : Quotation) (f : Flaw) : Flaw :=
  match assemble 1 q.pieces, f with
  | .error f, _ => f
  | .ok _, .wrong .badLetter reach | .ok _, .wrong .control reach =>
    if endsInLead q.pieces then .wrong .openHalf reach else f
  | .ok _, f => f

def token (q : Quotation) : Token × Bytes :=
  match q.rest with
  | .ok rest => (.string q.text, rest)
  | .error f => (.brokenString (q.told f) f, [])

end Quotation

def digits (s : Bytes) : Bytes × Bytes := (s.takeWhile isDigit, s.dropWhile isDigit)

def wordLimit : Nat := Nat.pow 2 64

/-- Reads digits into a machine word for as long as they fit, and counts those it leaves out. -/
def gather (n : Nat) : Bytes → Nat × Nat
  | [] => (n, 0)
  | b :: s => if n * 10 + digit b < wordLimit then gather (n * 10 + digit b) s else (n, s.length + 1)

def gatherFraction (n : Nat) (s : Bytes) : Nat × Nat :=
  let (m, left) := gather n s
  (m, s.length - left)

def exponentLimit : Nat := Nat.pow 2 31

/-- Goes on with an exponent; if it does not fit a half word, the number of digits that are left. -/
def gatherExponent (n : Nat) : Bytes → Except Nat Nat
  | [] => .ok n
  | b :: s =>
    if n * 10 + digit b < exponentLimit then gatherExponent (n * 10 + digit b) s else .error s.length

inductive Scan (α : Type) where
  | ok (value : α) (rest : Bytes)
  | broken (wanted skipped : Flaw)

def noDigits {α : Type} (n : Nat) : Bytes → Scan α
  | [] => .broken (.early .value) (.upTo n .badNumber)
  | _ :: _ => .broken (.upTo (n + 1) .badNumber) (.upTo (n + 1) .badNumber)

def scanFraction (n : Nat) (s : Bytes) : Scan (Option Bytes) :=
  match s with
  | 0x2e :: s =>
    match digits s with
    | ([], s) => noDigits (n + 1) s
    | (ds, s) => .ok (some ds) s
  | s => .ok none s

def scanExponent (n : Nat) (s : Bytes) : Scan (Option (Bool × Bytes)) :=
  match s with
  | [] => .ok none []
  | e :: s =>
    if e ≠ 0x65 && e ≠ 0x45 then .ok none (e :: s)
    else
      let (negative, n, s) := match s with
        | 0x2d :: s => (true, n + 2, s)
        | 0x2b :: s => (false, n + 2, s)
        | s => (false, n + 1, s)
      match digits s with
      | ([], s) => noDigits n s
      | (ds, s) => .ok (some (negative, ds)) s

def wholeNumber (negative : Bool) (n : Nat) : Number :=
  if !negative then .int n
  else if n = 0 || Nat.pow 2 63 < n then
    .float ((Double.ofDecimal true n 0).getD ⟨true, 0, 0⟩)
  else .int (-n)

/-- A number whose token has `width` bytes. That it is too large shows with the byte behind it. -/
def floatNumber (width : Nat) : Option Double → Except Flaw Number
  | some x => .ok (.float x)
  | none => .error (.upTo (width + 1) .tooLarge)

def numberOf (width : Nat) (negative : Bool) (whole : Bytes) (fraction : Option Bytes)
    (exponent : Option (Bool × Bytes)) : Except Flaw Number :=
  let (n, beyond) := gather 0 whole
  match fraction, exponent with
  | none, none =>
    if beyond = 0 then .ok (wholeNumber negative n)
    else floatNumber width (Double.ofDecimal negative n beyond)
  | _, _ =>
    let (n, places) := gatherFraction n (fraction.getD [])
    let base : Int := beyond - places
    match exponent with
    | none => floatNumber width (Double.ofDecimal negative n base)
    | some (down, ds) =>
      match gatherExponent 0 ds with
      | .error left =>
        if n ≠ 0 && !down then .error (.upTo (width - left) .tooLarge)
        else .ok (.float ⟨negative, 0, 0⟩)
      | .ok e =>
        floatNumber width (Double.ofDecimal negative n (if down then base - e else base + e))

def scanWhole (n : Nat) (s : Bytes) : Scan Bytes :=
  match digits s with
  | ([], s) => noDigits n s
  | (0x30 :: _ :: _, _) => .broken (.upTo (n + 2) .badNumber) (.upTo (n + 2) .badNumber)
  | (ds, s) => .ok ds s

def scanNumber (negative : Bool) (s : Bytes) : Token × Bytes :=
  let width (rest : Bytes) := negative.toNat + (s.length - rest.length)
  match scanWhole negative.toNat s with
  | .broken w k => (.broken w k, [])
  | .ok whole s =>
    match scanFraction (width s) s with
    | .broken w k => (.broken w k, [])
    | .ok fraction s =>
      match scanExponent (width s) s with
      | .broken w k => (.broken w k, [])
      | .ok exponent s =>
        (.number (numberOf (width s) negative whole fraction exponent), s)

def scanName (n : Nat) (token : Token) (broken : Flaw → Token) :
    (name : Bytes) → Bytes → Token × Bytes
  | [], s => (token, s)
  | _ :: _, [] => (broken (.early .value), [])
  | a :: name, b :: s =>
    if a = b then scanName (n + 1) token broken name s
    else (broken (.upTo (n + 1) .noName), [])

def scanBool (b : Bool) (name : String) (s : Bytes) : Token × Bytes :=
  scanName 1 (.bool b) (fun f => .broken f f) (Text.utf8 name) s

def scan (b : UInt8) (s : Bytes) : Token × Bytes :=
  if b == 0x7b then (.lbrace, s)
  else if b == 0x7d then (.rbrace, s)
  else if b == 0x5b then (.lbracket, s)
  else if b == 0x5d then (.rbracket, s)
  else if b == 0x2c then (.comma, s)
  else if b == 0x3a then (.colon, s)
  else if b == 0x22 then (Quotation.read 1 s).token
  else if b == 0x2d then scanNumber true s
  else if isDigit b then scanNumber false (b :: s)
  else if b == 0x6e then scanName 1 .null .brokenNull (Text.utf8 "ull") s
  else if b == 0x74 then scanBool true "rue" s
  else if b == 0x66 then scanBool false "alse" s
  else (.broken (.first .noValue) (.first .noValue), [])

def tokens (s : Bytes) : List Token :=
  match s.dropWhile isSpace with
  | [] => []
  | b :: s' =>
    let (t, rest) := scan b s'
    if rest.length < s.length then t :: tokens rest else [t]
termination_by s.length

end Phrasebook.Json
