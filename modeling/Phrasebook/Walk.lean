import Phrasebook.Dictionary

/-!
The ways in which a sequence of words can be read from a position of a dictionary. Every word is
spelled out letter by letter; the last may stop anywhere, the others end where a word ends. An open
place is read by reading a pattern of one of its scopes and going on behind the place.

A scope is entered at most once between two words: `free` lists the scopes that may still be
entered, and each word read sets it back to all of them. So the reading ends on every dictionary,
also on scopes that refer to themselves.
-/

namespace Phrasebook

/-- One way of reading. `top` is the position reached in the outermost pattern; `inner` are the
positions inside the scopes still open below it, outermost first; `rest` are the words not read. -/
structure Walk where
  top : Node
  inner : List Node
  rest : List Word

namespace Walk

def isComplete (w : Walk) : Bool := w.rest.isEmpty

def stack (w : Walk) : List Node := (w.top :: w.inner).reverse

/-- The walk seen from outside the place it was made in. A pattern that is over at `top` and goes on
nowhere has nothing more to say there. -/
def leave (place : Node) (w : Walk) : Walk :=
  if w.top.isEnd && w.top.isLeaf then { w with top := place }
  else { w with top := place, inner := w.top :: w.inner }

end Walk

/-- Something found in reading `tokens`: nothing is left to read of them, or fewer than there were. -/
structure Reading {α : Type} (rest : α → List Word) (tokens : List Word) where
  found : α
  shorter : rest found = [] ∨ (rest found).length < tokens.length

namespace Reading
variable {α : Type} {rest : α → List Word} {fewer tokens : List Word}

def after (h : fewer.length < tokens.length) (r : Reading rest fewer) : Reading rest tokens :=
  ⟨r.found, r.shorter.imp_right (Nat.lt_trans · h)⟩

def map (f : α → α) (h : ∀ a, rest (f a) = rest a) (r : Reading rest tokens) : Reading rest tokens :=
  ⟨f r.found, by rw [h]; exact r.shorter⟩

end Reading

theorem Walk.rest_leave (w : Walk) (place : Node) : (w.leave place).rest = w.rest := by
  simp only [leave]
  split <;> rfl

namespace Dictionary

mutual

def readings (d : Dictionary) (free : List ScopeId) (n : Node) (tokens : List Word) :
    List (Reading Walk.rest tokens) :=
  match tokens with
  | [] => [⟨⟨n, [], []⟩, .inl rfl⟩]
  | token :: rest =>
    (match n.spell token.letters with
      | none => []
      | some stop =>
        (if stop.isEnd && !rest.isEmpty then [⟨⟨stop, [], rest⟩, .inr (Nat.lt_succ_self _)⟩]
          else []) ++
          (d.readings d.ids stop rest).map (·.after (Nat.lt_succ_self _))) ++
    n.slots.flatMap fun slot => d.readingsThrough free slot.1 slot.2 (token :: rest)
termination_by (tokens.length, free.length, 1)

/-- The readings that read the open place `p` first; `place` is the position behind it. -/
def readingsThrough (d : Dictionary) (free : List ScopeId) (p : Placeholder) (place : Node)
    (tokens : List Word) : List (Reading Walk.rest tokens) :=
  p.contexts.flatMap fun id =>
    if _ : id ∈ free then
      match d.root? id with
      | none => []
      | some root =>
        (d.readings (free.erase id) root tokens).flatMap fun r =>
          let left := r.map (·.leave place) (·.rest_leave place)
          if h : r.found.rest = [] then [left]
          else if r.found.top.isEnd then
            (if place.isEnd then [left] else []) ++
              (d.readings d.ids place r.found.rest).map (·.after (r.shorter.resolve_left h))
          else []
    else []
termination_by (tokens.length, free.length, 0)
decreasing_by
  · exact .left _ _ (r.shorter.resolve_left h)
  · exact .right _ (.left _ _ (length_erase_lt ‹_›))

end

def walks (d : Dictionary) (free : List ScopeId) (n : Node) (tokens : List Word) : List Walk :=
  (d.readings free n tokens).map (·.found)

def scopeWalks (d : Dictionary) (id : ScopeId) (tokens : List Word) : List Walk :=
  match d.root? id with
  | none => []
  | some root => d.walks (d.ids.erase id) root tokens

end Dictionary
end Phrasebook
