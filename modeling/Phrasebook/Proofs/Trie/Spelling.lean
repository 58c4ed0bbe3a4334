import Phrasebook.Completion
import Phrasebook.Proofs.Trie.Paths
import Phrasebook.Proofs.Word
import Phrasebook.Query

/-!
Patterns as paths. A stored pattern is a list of words and open places, one alias chosen for each
lookup; spelled out letter by letter it is a path of the tree. A path is read back in one way only,
so the suggestions of a position and the patterns of a scope tell the stored items. Positions are of
two kinds: at a boundary every path on spells whole items; inside a word letters may come first.
-/

namespace Phrasebook

/-- One element of a stored pattern, one alias chosen where it is a lookup. -/
inductive Item where
  | word (w : Word)
  | slot (p : Placeholder)
deriving DecidableEq

namespace Item

def segment : Item → Segment
  | .word w => .word w.text
  | .slot p => .slot p

def labels : Item → List Label
  | .word w => Step.spelled w.letters
  | .slot p => [.slot p]

theorem segment_injective : Function.Injective segment := by
  intro x y h
  cases x <;> cases y <;> simp_all [segment, Word.ext_iff]

end Item

def spelling (items : List Item) : List Label := items.flatMap Item.labels

@[simp] theorem spelling_nil : spelling [] = [] := rfl

@[simp] theorem spelling_slot (p : Placeholder) (items : List Item) :
    spelling (.slot p :: items) = .slot p :: spelling items := rfl

theorem spelling_word (w : Word) (items : List Item) {c : Char} {s : List Char}
    (h : w.letters = c :: s) :
    spelling (.word w :: items) = .start c :: (s.map .more ++ spelling items) := by
  simp [spelling, Item.labels, h, Step.spelled]

theorem slot_mem_of_mem_spelling {items : List Item} {p : Placeholder}
    (h : Label.slot p ∈ spelling items) : Item.slot p ∈ items := by
  obtain ⟨x, hx, hp⟩ := List.mem_flatMap.1 h
  cases x with
  | word w =>
    obtain ⟨c, s, hcs⟩ := w.exists_letters
    simp [Item.labels, hcs, Step.spelled] at hp
  | slot p' =>
    cases List.mem_singleton.1 hp
    exact hx

namespace Tail

def along : List Label → Tail
  | [] => {}
  | .more c :: q => (along q).more c
  | .start c :: q => (along q).start c
  | .slot p :: q => (along q).slot p

theorem along_spelling (r : List Char) (items : List Item) :
    along (r.map .more ++ spelling items) = ⟨r, items.map Item.segment⟩ := by
  induction items generalizing r with
  | nil =>
    induction r with
    | nil => rfl
    | cons c r ih => simp only [List.map_cons, List.cons_append, along, ih, more]
  | cons x items ih =>
    induction r with
    | nil =>
      cases x with
      | word w =>
        obtain ⟨c, s, hcs⟩ := w.exists_letters
        rw [spelling_word w items hcs]
        simp [along, ih, start, ← hcs, Word.ofList_letters, Item.segment]
      | slot p =>
        have hitems := ih []
        rw [List.map_nil, List.nil_append] at hitems
        simp [along, hitems, slot, close, Item.segment]
    | cons c r ihr => simp only [List.map_cons, List.cons_append, along, ihr, more]

theorem along_items (items : List Item) :
    along (spelling items) = ⟨[], items.map Item.segment⟩ := by
  have h := along_spelling [] items
  rwa [List.map_nil, List.nil_append] at h

end Tail

theorem spelling_cancel {r r' : List Char} {items items' : List Item}
    (h : r.map .more ++ spelling items = r'.map .more ++ spelling items') :
    r = r' ∧ items = items' := by
  have htail := congrArg Tail.along h
  rw [Tail.along_spelling, Tail.along_spelling] at htail
  injection htail with hr hitems
  exact ⟨hr, List.map_injective_iff.2 Item.segment_injective hitems⟩

theorem cut_spelling {s s' : List Char} {q : List Label} {items : List Item}
    (h : s.map .more ++ q = s'.map .more ++ spelling items) :
    ∃ r, s' = s ++ r ∧ q = r.map .more ++ spelling items := by
  induction s generalizing s' with
  | nil => exact ⟨s', rfl, h⟩
  | cons c s ih =>
    cases s' with
    | nil =>
      rcases items with - | ⟨w | p, items⟩
      · cases h
      · obtain ⟨d, s', hds⟩ := w.exists_letters
        rw [List.map_nil, List.nil_append, spelling_word w items hds] at h
        cases h
      · cases h
    | cons d s' =>
      obtain ⟨hcd, hrest⟩ := List.cons.inj h
      obtain ⟨r, rfl, hq⟩ := ih hrest
      cases hcd
      exact ⟨r, rfl, hq⟩

theorem spelling_injective {items items' : List Item} (h : spelling items = spelling items') :
    items = items' :=
  (@spelling_cancel [] [] items items' h).2

namespace Node

mutual

theorem tails_eq : (n : Node) → n.tails = n.paths.map Tail.along
  | mk _ isEnd chars words slots => by
    rw [tails, paths, edgeTails_eq .more (fun _ _ => rfl) chars,
      edgeTails_eq .start (fun _ _ => rfl) words, slotTails_eq slots]
    cases isEnd <;> simp [Tail.along]

theorem edgeTails_eq (label : Char → Label) {enter : Char → Tail → Tail}
    (h : ∀ c q, Tail.along (label c :: q) = enter c (Tail.along q)) :
    (edges : List (Char × Node)) → edgeTails enter edges = (edgePaths label edges).map Tail.along
  | [] => rfl
  | (c, n) :: rest => by
    simp [edgeTails, edgePaths, tails_eq n, edgeTails_eq label h rest, Function.comp_def, h]

theorem slotTails_eq : (slots : List (Placeholder × Node)) →
    slotTails slots = (slotPaths slots).map Tail.along
  | [] => rfl
  | (p, n) :: rest => by
    simp [slotTails, slotPaths, tails_eq n, slotTails_eq rest, Function.comp_def, Tail.along]

end

variable {n stop place : Node} {items : List Item} {w t : Word} {r : List Char} {p : Placeholder}

/-- The items may follow at `n`, up to the end of a stored pattern. -/
def Holds (n : Node) (items : List Item) : Prop := spelling items ∈ n.paths

def HoldsAfter (n : Node) (r : List Char) (items : List Item) : Prop :=
  r.map .more ++ spelling items ∈ n.paths

/-- A position of a tree of patterns, maybe inside a word. -/
structure Sound (n : Node) : Prop where
  ordered : n.Ordered
  spelled : ∀ q ∈ n.paths, ∃ (r : List Char) (items : List Item),
    q = r.map .more ++ spelling items

/-- A position between two elements, where no word goes on. -/
structure Boundary (n : Node) : Prop where
  ordered : n.Ordered
  spelled : ∀ q ∈ n.paths, ∃ items, q = spelling items

theorem Boundary.sound (h : n.Boundary) : n.Sound where
  ordered := h.ordered
  spelled := by
    intro q hq
    obtain ⟨items, rfl⟩ := h.spelled q hq
    exact ⟨[], items, rfl⟩

theorem holds_nil : n.Holds [] ↔ n.isEnd = true := nil_mem_paths

theorem Sound.mem_complete_iff (h : n.Sound) {input : List Word} {s : Suggestion} :
    s ∈ n.complete input ↔ ∃ r items, n.HoldsAfter r items ∧
      s = Tail.suggestion input ⟨r, items.map Item.segment⟩ := by
  rw [complete]
  rw [tails_eq, List.map_map, List.mem_map]
  constructor
  · intro hm
    obtain ⟨q, hq, rfl⟩ := hm
    obtain ⟨r, items, rfl⟩ := h.spelled q hq
    exact ⟨r, items, hq, by rw [Function.comp_apply, Tail.along_spelling]⟩
  · intro hm
    obtain ⟨r, items, hq, rfl⟩ := hm
    exact ⟨_, hq, by rw [Function.comp_apply, Tail.along_spelling]⟩

theorem Boundary.mem_complete_iff (h : n.Boundary) {input : List Word} {s : Suggestion} :
    s ∈ n.complete input ↔ ∃ items, n.Holds items ∧ s = ⟨none, items.map Item.segment⟩ := by
  rw [h.sound.mem_complete_iff]
  constructor
  · intro hm
    obtain ⟨r, items, hq, rfl⟩ := hm
    obtain ⟨items', heq⟩ := h.spelled _ hq
    obtain ⟨rfl, rfl⟩ := @spelling_cancel r [] items items' heq
    exact ⟨items, hq, by simp [Tail.suggestion, Tail.close]⟩
  · intro hm
    obtain ⟨items, hq, rfl⟩ := hm
    exact ⟨[], items, hq, by simp [Tail.suggestion, Tail.close]⟩

theorem Boundary.complete_eq (h : n.Boundary) (input : List Word) :
    n.complete input = n.complete [] := by
  apply List.map_congr_left
  intro t ht
  rw [tails_eq] at ht
  obtain ⟨q, hq, rfl⟩ := List.mem_map.1 ht
  obtain ⟨items, rfl⟩ := h.spelled q hq
  simp [Tail.suggestion, Tail.along_items]

theorem Boundary.mem_map_close_iff (h : n.Boundary) {segments : List Segment} :
    segments ∈ n.tails.map Tail.close ↔
      ∃ items, n.Holds items ∧ segments = items.map Item.segment := by
  rw [tails_eq, List.map_map, List.mem_map]
  constructor
  · intro hm
    obtain ⟨q, hq, rfl⟩ := hm
    obtain ⟨items, rfl⟩ := h.spelled q hq
    exact ⟨items, hq, by rw [Function.comp_apply, Tail.along_items]; rfl⟩
  · intro hm
    obtain ⟨items, hheld, rfl⟩ := hm
    exact ⟨_, hheld, by rw [Function.comp_apply, Tail.along_items]; rfl⟩

theorem Sound.exists_word (h : n.Sound) {c : Char} {q : List Label}
    (hq : .start c :: q ∈ n.paths) : ∃ (w : Word) (s : List Char) (items : List Item),
      w.letters = c :: s ∧ q = s.map .more ++ spelling items := by
  obtain ⟨r, items, heq⟩ := h.spelled _ hq
  rcases r with - | ⟨d, r⟩
  · rcases items with - | ⟨w | p, items⟩
    · cases heq
    · obtain ⟨d, s, hds⟩ := w.exists_letters
      rw [List.map_nil, List.nil_append, spelling_word w items hds] at heq
      cases heq
      exact ⟨w, s, items, hds, rfl⟩
    · cases heq
  · cases heq

theorem Sound.spell (h : n.Sound) (hs : n.spell t.letters = some stop) :
    stop.Sound ∧ ∀ r items, stop.HoldsAfter r items ↔
      ∃ w : Word, w.letters = t.letters ++ r ∧ n.Holds (.word w :: items) := by
  obtain ⟨c, s, hcs⟩ := t.exists_letters
  rw [hcs] at hs ⊢
  obtain ⟨hordered, hpaths⟩ := spell_paths h.ordered hs
  have hread : ∀ q ∈ stop.paths, ∃ (r : List Char) (items : List Item),
      q = r.map .more ++ spelling items ∧
      ∃ w : Word, w.letters = c :: s ++ r ∧ n.Holds (.word w :: items) := by
    intro q hq
    have hq' := (hpaths q).1 hq
    obtain ⟨w, s', items, hw, heq⟩ := h.exists_word hq'
    obtain ⟨r, rfl, rfl⟩ := cut_spelling heq
    refine ⟨r, items, rfl, w, hw, ?_⟩
    rwa [Holds, spelling_word w items hw, ← heq]
  refine ⟨⟨hordered, ?_⟩, fun r items => ⟨?_, ?_⟩⟩
  · intro q hq
    obtain ⟨r, items, heq, -⟩ := hread q hq
    exact ⟨r, items, heq⟩
  · intro hq
    obtain ⟨r', items', heq, hw⟩ := hread _ hq
    obtain ⟨rfl, rfl⟩ := spelling_cancel heq
    exact hw
  · intro hm
    obtain ⟨w, hw, hheld⟩ := hm
    rw [List.cons_append] at hw
    rw [Holds, spelling_word w items hw, List.map_append, List.append_assoc] at hheld
    exact (hpaths _).2 hheld

theorem Sound.exists_spell (h : n.Sound) (hw : w.letters = t.letters ++ r)
    (hheld : n.Holds (.word w :: items)) : ∃ stop, n.spell t.letters = some stop := by
  obtain ⟨c, s, hcs⟩ := t.exists_letters
  rw [hcs, List.cons_append] at hw
  rw [hcs]
  rw [Holds, spelling_word w items hw, List.map_append, List.append_assoc] at hheld
  exact Node.exists_spell h.ordered hheld

theorem Sound.slot (h : n.Sound) (hp : (p, place) ∈ n.slots) :
    place.Boundary ∧ ∀ items, place.Holds items ↔ n.Holds (.slot p :: items) := by
  have ha : n.Arc (.slot p) place := hp
  refine ⟨⟨h.ordered.arc ha, ?_⟩, fun items => h.ordered.mem_paths_of_arc ha⟩
  intro q hq
  obtain ⟨r, items, heq⟩ := h.spelled _ ((h.ordered.mem_paths_of_arc ha).1 hq)
  rcases r with - | ⟨c, r⟩
  · rcases items with - | ⟨w | p', items⟩
    · cases heq
    · obtain ⟨c, s, hcs⟩ := w.exists_letters
      rw [List.map_nil, List.nil_append, spelling_word w items hcs] at heq
      cases heq
    · exact ⟨items, (List.cons.inj heq).2⟩
  · cases heq

theorem exists_slot (hheld : n.Holds (.slot p :: items)) : ∃ place, (p, place) ∈ n.slots := by
  obtain ⟨place, ha, -⟩ := cons_mem_paths.1 hheld
  exact ⟨place, ha⟩

end Node
end Phrasebook
