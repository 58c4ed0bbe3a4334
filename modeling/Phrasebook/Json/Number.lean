/-!
Numbers as JSON texts write them. A whole number that fits a machine word stays whole; every other
number, and a negative zero, is the binary fraction that its decimal digits are rounded to. A binary
fraction is shown with the fewest decimal digits that round to it.
-/

namespace Phrasebook.Json

structure Double where
  negative : Bool
  mantissa : Nat
  exponent : Int
deriving DecidableEq

namespace Double

/-- The nearest whole number to `num / den`, an even one if two are equally near. -/
def nearest (num den : Nat) : Nat :=
  let q := num / den
  let twice := 2 * (num % den)
  if den < twice || (twice == den && q % 2 == 1) then q + 1 else q

def scaleUp (n : Nat) (e : Int) : Nat := n * Nat.pow 2 e.toNat

def inUnits (num den : Nat) (e : Int) : Nat := nearest (scaleUp num (-e)) (scaleUp den e)

/-- The binary fraction of 53 digits that is nearest to `num / den`; none if it is out of range. -/
def round (num den : Nat) : Option (Nat × Int) :=
  if num = 0 then some (0, 0)
  else
    let guess : Int := num.log2 - den.log2 - 53
    let fits (e : Int) : Bool := scaleUp num (-e) < Nat.pow 2 53 * scaleUp den e
    let e := if fits guess then guess else if fits (guess + 1) then guess + 1 else guess + 2
    let e := max e (-1074)
    let m := inUnits num den e
    let (m, e) := if m = Nat.pow 2 53 then (Nat.pow 2 52, e + 1) else (m, e)
    if 971 < e then none else some (m, e)

def times (a b : Nat × Int) : Option (Nat × Int) :=
  let e := a.2 + b.2
  round (scaleUp (a.1 * b.1) e) (scaleUp 1 (-e))

def divide (a b : Nat × Int) : Option (Nat × Int) :=
  let e := a.2 - b.2
  round (scaleUp a.1 e) (scaleUp b.1 (-e))

def tenLimit : Nat := 308

/-- `significand * 10 ^ exponent`, rounded after each of its steps. -/
def scale (f : Nat × Int) : (exponent : Int) → Option (Nat × Int)
  | .ofNat k =>
    if k ≤ tenLimit then (round (Nat.pow 10 k) 1).bind (times f)
    else if f.1 = 0 then some f
    else none
  | .negSucc k =>
    if k + 1 ≤ tenLimit then (round (Nat.pow 10 (k + 1)) 1).bind (divide f)
    else if f.1 = 0 then some f
    else match (round (Nat.pow 10 tenLimit) 1).bind (divide f) with
      | none => none
      | some f => if 2 * tenLimit < k + 1 then some (0, 0) else scaleOnce f (k + 1 - tenLimit)
where
  scaleOnce (f : Nat × Int) (k : Nat) : Option (Nat × Int) :=
    if f.1 = 0 then some f else (round (Nat.pow 10 k) 1).bind (divide f)

def ofDecimal (negative : Bool) (significand : Nat) (exponent : Int) : Option Double := do
  let f ← round significand 1
  let f ← scale f exponent
  some ⟨negative, f.1, f.2⟩

def readsAs (f : Nat × Int) (n : Nat) (p : Int) : Bool :=
  round (n * Nat.pow 10 p.toNat) (Nat.pow 10 (-p).toNat) == some f

def candidates (f : Nat × Int) (p : Int) : List Nat :=
  let num := scaleUp f.1 f.2 * Nat.pow 10 (-p).toNat
  let den := scaleUp 1 (-f.2) * Nat.pow 10 p.toNat
  let low := num / den
  let near := nearest num den
  let far := if near = low then low + 1 else low
  [near, far].filter fun n => n ≠ 0 && readsAs f n p

/-- The fewest digits that read back as `f`, as a whole number and a power of ten. -/
def shortestFrom (f : Nat × Int) (top : Int) : (digits : Nat) → Nat × Int
  | 0 => (f.1, f.2)
  | left + 1 =>
    let p := top - (18 - left)
    match candidates f p with
    | n :: _ => (n, p)
    | [] => shortestFrom f top left

def dropZeros (n : Nat) (p : Int) : (fuel : Nat) → Nat × Int
  | 0 => (n, p)
  | fuel + 1 => if n % 10 = 0 && n ≠ 0 then dropZeros (n / 10) (p + 1) fuel else (n, p)

def decimalLength (n : Nat) : Nat := (toString n).length

def shortest (f : Nat × Int) : Nat × Int :=
  let whole := scaleUp f.1 f.2
  let parts := scaleUp 1 (-f.2)
  let top : Int :=
    if parts ≤ whole then decimalLength (whole / parts)
    else 1 - (decimalLength (parts / whole) : Int) + 1
  let (n, p) := shortestFrom f top 18
  dropZeros n p (decimalLength n)

def zeros (n : Nat) : String := String.ofList (List.replicate n '0')

def exponentText (e : Int) : String := (if e < 0 then "e" else "e+") ++ toString e

/-- Positional notation for numbers of moderate size, else an exponent. -/
def renderDigits (n : Nat) (k : Int) : String :=
  let digits := toString n
  let point : Int := digits.length + k
  if 0 ≤ k && point ≤ 16 then digits ++ zeros k.toNat ++ ".0"
  else if 0 < point && point ≤ 16 then
    String.ofList (digits.toList.take point.toNat) ++ "." ++
      String.ofList (digits.toList.drop point.toNat)
  else if -5 < point && point ≤ 0 then "0." ++ zeros (-point).toNat ++ digits
  else if digits.length = 1 then digits ++ exponentText (point - 1)
  else String.ofList (digits.toList.take 1) ++ "." ++ String.ofList (digits.toList.drop 1) ++
    exponentText (point - 1)

def render (x : Double) : String :=
  let body :=
    if x.mantissa = 0 then "0.0"
    else let (n, k) := shortest (x.mantissa, x.exponent); renderDigits n k
  if x.negative then "-" ++ body else body

end Double

inductive Number where
  | int (n : Int)
  | float (x : Double)
deriving DecidableEq

end Phrasebook.Json
