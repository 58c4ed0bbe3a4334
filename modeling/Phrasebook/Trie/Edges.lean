/-!
Edges labelled by characters, kept in the order of their labels. A short list is scanned from its
start, a long one is halved until the label is met.
-/

namespace Phrasebook

abbrev Edges (α : Type) := List (Char × α)

namespace Edges
variable {α : Type}

def scan (c : Char) : Edges α → Option α
  | [] => none
  | e :: rest => if e.1 = c then some e.2 else scan c rest

def halve (c : Char) (edges : Edges α) : Option α :=
  match h : edges.drop (edges.length / 2) with
  | [] => none
  | e :: rest =>
    if e.1 = c then some e.2
    else if c < e.1 then halve c (edges.take (edges.length / 2))
    else halve c rest
termination_by edges.length
decreasing_by
  all_goals
    have h' := congrArg List.length h
    simp only [List.length_drop, List.length_cons, List.length_take] at h' ⊢
    omega

/-- From this many edges on, looking one up is done by halving. -/
def scanLimit : Nat := 16

def find? (c : Char) (edges : Edges α) : Option α :=
  if edges.length < scanLimit then scan c edges else halve c edges

def put (c : Char) (target : α) : Edges α → Edges α
  | [] => [(c, target)]
  | e :: rest =>
    if c < e.1 then (c, target) :: e :: rest
    else if c = e.1 then (c, target) :: rest
    else e :: put c target rest

end Edges
end Phrasebook
