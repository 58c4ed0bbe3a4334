import Phrasebook.Completion
import Phrasebook.Dictionary

/-!
Filling the open places of a suggestion with words. A budget bounds the number of words put in;
where some filling would exceed it, the place may also stay open and nothing after it is filled.

A scope is entered at most once between two words put in: `free` lists the scopes that may still be
entered, and each word sets it back to all of them. Each filling is kept with the number of words it
costs.
-/

namespace Phrasebook

/-- The ways to fill something, each with the words it costs, and whether some way was cut. -/
structure Fillings where
  ways : List (List Segment × Nat) := []
  cut : Bool := false

namespace Fillings

def append (a b : Fillings) : Fillings := ⟨a.ways ++ b.ways, a.cut || b.cut⟩

def join (l : List Fillings) : Fillings := ⟨l.flatMap ways, l.any cut⟩

def after (head : List Segment) (cost : Nat) (f : Fillings) : Fillings :=
  { f with ways := f.ways.map fun w => (head ++ w.1, cost + w.2) }

end Fillings

namespace Dictionary

mutual

def fill (d : Dictionary) (free : List ScopeId) (p : Placeholder) (budget : Nat) : Fillings :=
  .join (p.contexts.map fun id =>
    match d.root? id with
    | none => {}
    | some root =>
      if _ : id ∈ free then
        .join (root.tails.map fun t => d.fillAll (free.erase id) t.close budget)
      else { cut := true })
termination_by (budget, free.length, 0)
decreasing_by exact .right _ (.left _ _ (length_erase_lt ‹_›))

/-- The ways to fill every place of a pattern; its own words count too. -/
def fillAll (d : Dictionary) (free : List ScopeId) (segments : List Segment) (budget : Nat) :
    Fillings :=
  match segments with
  | [] => { ways := [([], 0)] }
  | .slot p :: rest =>
    let filled := d.fill free p budget
    let rests := filled.ways.map fun w =>
      if budget - w.2 < budget then (d.fillAll d.ids rest (budget - w.2)).after w.1 w.2
      else (d.fillAll free rest budget).after w.1 w.2
    { Fillings.join rests with cut := filled.cut || (Fillings.join rests).cut }
  | x :: rest =>
    match budget with
    | 0 => { cut := true }
    | left + 1 => (d.fillAll d.ids rest left).after [x] 1
termination_by (budget, free.length, segments.length)

end

def resolveSegments (d : Dictionary) : List Segment → Nat → List (List Segment)
  | [], _ => [[]]
  | .slot p :: rest, budget =>
    let filled := d.fill d.ids p budget
    (filled.ways.flatMap fun w => (d.resolveSegments rest (budget - w.2)).map (w.1 ++ ·)) ++
      if filled.cut then [.slot p :: rest] else []
  | x :: rest, budget => (d.resolveSegments rest budget).map (x :: ·)

/-- Fills the open places with at most `lookahead` words. A suggestion with a place that nothing
fills is dropped. -/
def resolve (d : Dictionary) (s : Suggestion) (lookahead : Nat) : List Suggestion :=
  (d.resolveSegments s.segments lookahead).map fun segments => { s with segments }

end Dictionary
end Phrasebook
