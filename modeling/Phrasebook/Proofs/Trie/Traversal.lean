import Phrasebook.Proofs.Trie.Spelling

/-!
Traversals of a tree that keep one path for all of it. A step down writes to the path, the way back
undoes what was written, and where a stored pattern ends the path is read. Two of them are run on the
trees of a dictionary, one for suggestions and one for patterns, and they treat a letter differently:
the one opens a text where there is no word to go on with, the other then leaves the letter out. Each
comes to what is read off the stored paths one by one, on every tree.
-/

namespace Phrasebook

/-- How a path is written, its last entry first. A letter goes on with it and says what is to be
undone; a word and a place are new entries. -/
structure Trail (α : Type) where
  goOn : Char → List α → List α × Bool
  goBack : Bool → List α → List α
  word : Char → α
  slot : Placeholder → α
  goBack_goOn : ∀ c path, goBack (goOn c path).2 (goOn c path).1 = path

abbrev Tour (α β : Type) := StateM (List α × List β)

namespace Trail

variable {α β : Type} {t : Trail α} {read : List α → β} {l : Label} {path : List α}
  {bs bs' : List β} {m m' : Tour α β Unit}

def down (t : Trail α) : Label → List α → List α × Bool
  | .more c, path => t.goOn c path
  | .start c, path => (t.word c :: path, true)
  | .slot p, path => (t.slot p :: path, true)

def up (t : Trail α) : Label → Bool → List α → List α
  | .more _, opened, path => t.goBack opened path
  | _, _, path => path.tail

theorem up_down (t : Trail α) (l : Label) (path : List α) :
    t.up l (t.down l path).2 (t.down l path).1 = path := by
  cases l with
  | more c => exact t.goBack_goOn c path
  | start c => rfl
  | slot p => rfl

def note (read : List α → β) (isEnd : Bool) : Tour α β Unit :=
  modify fun s => (s.1, if isEnd then s.2 ++ [read s.1] else s.2)

def inside (t : Trail α) (l : Label) (work : Tour α β Unit) : Tour α β Unit := do
  let opened ← modifyGet fun s => ((t.down l s.1).2, (t.down l s.1).1, s.2)
  work
  modify fun s => (t.up l opened s.1, s.2)

mutual

def tour (t : Trail α) (read : List α → β) : Node → Tour α β Unit
  | .mk _ isEnd chars words slots => do
    note read isEnd
    t.tourEdges read .more chars
    t.tourEdges read .start words
    t.tourSlots read slots

def tourEdges (t : Trail α) (read : List α → β) (label : Char → Label) :
    List (Char × Node) → Tour α β Unit
  | [] => pure ()
  | (c, n) :: rest => do
    t.inside (label c) (t.tour read n)
    t.tourEdges read label rest

def tourSlots (t : Trail α) (read : List α → β) : List (Placeholder × Node) → Tour α β Unit
  | [] => pure ()
  | (p, n) :: rest => do
    t.inside (.slot p) (t.tour read n)
    t.tourSlots read rest

end

def collect (t : Trail α) (read : List α → β) (n : Node) : List β :=
  ((t.tour read n).run ([], [])).2.2

/-- The work finds these and leaves the path as it was. -/
def Finds (m : Tour α β Unit) (path : List α) (bs : List β) : Prop :=
  ∀ found, m.run (path, found) = ((), path, found ++ bs)

namespace Finds

theorem pure : Finds (Pure.pure () : Tour α β Unit) path [] := by
  intro found
  rw [List.append_nil]
  rfl

theorem note (isEnd : Bool) : Finds (note read isEnd) path (if isEnd then [read path] else []) := by
  intro found
  cases isEnd with
  | true => rfl
  | false => exact pure found

theorem seq (h : Finds m path bs) (h' : Finds m' path bs') : Finds (do m; m') path (bs ++ bs') := by
  intro found
  rw [StateT.run_bind, h found, ← List.append_assoc]
  exact h' _

theorem inside (h : Finds m (t.down l path).1 bs) : Finds (t.inside l m) path bs := by
  intro found
  have hstep : (t.inside l m).run (path, found) = ((), t.up l (t.down l path).2
      (m.run ((t.down l path).1, found)).2.1, (m.run ((t.down l path).1, found)).2.2) := rfl
  rw [hstep, h found, up_down]

end Finds

def write (t : Trail α) (path : List α) (q : List Label) : List α :=
  q.foldl (fun path l => (t.down l path).1) path

-- Along the tree, for every path: each step is taken back before the next one is made.
mutual

theorem finds_tour (t : Trail α) (read : List α → β) : (n : Node) → (path : List α) →
    Finds (t.tour read n) path (n.paths.map fun q => read (t.write path q))
  | .mk _ isEnd chars words slots, path => by
    rw [tour, Node.paths, List.append_assoc, List.append_assoc, List.map_append, List.map_append,
      List.map_append, apply_ite (List.map _)]
    exact (Finds.note isEnd).seq ((t.finds_tourEdges read .more chars path).seq
      ((t.finds_tourEdges read .start words path).seq (t.finds_tourSlots read slots path)))

theorem finds_tourEdges (t : Trail α) (read : List α → β) (label : Char → Label) :
    (edges : List (Char × Node)) → (path : List α) → Finds (t.tourEdges read label edges) path
      ((Node.edgePaths label edges).map fun q => read (t.write path q))
  | [], _ => .pure
  | (c, n) :: rest, path => by
    rw [tourEdges, Node.edgePaths, List.map_append, List.map_map]
    exact (Finds.inside (t.finds_tour read n _)).seq (t.finds_tourEdges read label rest path)

theorem finds_tourSlots (t : Trail α) (read : List α → β) : (slots : List (Placeholder × Node)) →
    (path : List α) → Finds (t.tourSlots read slots) path
      ((Node.slotPaths slots).map fun q => read (t.write path q))
  | [], _ => .pure
  | (p, n) :: rest, path => by
    rw [tourSlots, Node.slotPaths, List.map_append, List.map_map]
    exact (Finds.inside (t.finds_tour read n _)).seq (t.finds_tourSlots read rest path)

end

theorem collect_eq (t : Trail α) (read : List α → β) (n : Node) :
    t.collect read n = n.paths.map fun q => read (t.write [] q) := by
  rw [collect, t.finds_tour read n [] []]
  rfl

end Trail

def chop (s : String) : String := String.ofList s.toList.dropLast

theorem chop_push (s : String) (c : Char) : chop (s.push c) = s := by
  rw [chop, String.toList_push, List.dropLast_concat, String.ofList_toList]

theorem push_append_ofList (s : String) (c : Char) (letters : List Char) :
    s.push c ++ String.ofList letters = s ++ String.ofList (c :: letters) := by
  apply String.toList_injective
  simp

namespace Segment

def goOn (c : Char) : List Segment → List Segment × Bool
  | .text s :: path => (.text (s.push c) :: path, false)
  | .word s :: path => (.word (s.push c) :: path, false)
  | path => (.text (String.singleton c) :: path, true)

def goBack : Bool → List Segment → List Segment
  | true, path => path.tail
  | false, .text s :: path => .text (chop s) :: path
  | false, .word s :: path => .word (chop s) :: path
  | false, path => path

def trail : Trail Segment where
  goOn := goOn
  goBack := goBack
  word c := .word (String.singleton c)
  slot := .slot
  goBack_goOn c path := by
    rcases path with - | ⟨s | s | p, path⟩ <;> simp [goOn, goBack, chop_push]

end Segment

def Tail.behind (t : Tail) : List Segment → List Segment
  | .text s :: path => path.reverse ++ .text (s ++ String.ofList t.letters) :: t.segments
  | .word s :: path => path.reverse ++ .word (s ++ String.ofList t.letters) :: t.segments
  | path => path.reverse ++ t.close

-- Only the last entry of the path is written to again, so the entry and the way on tell the rest.
theorem reverse_write_trail (path : List Segment) (q : List Label) :
    (Segment.trail.write path q).reverse = (Tail.along q).behind path := by
  induction q generalizing path with
  | nil =>
    rcases path with - | ⟨s | s | p, path⟩ <;>
      simp [Trail.write, Tail.along, Tail.behind, Tail.close]
  | cons l q ih =>
    rw [Trail.write, List.foldl_cons, ← Trail.write, ih]
    cases l with
    | more c =>
      rcases path with - | ⟨s | s | p, path⟩ <;>
        simp [Trail.down, Segment.trail, Segment.goOn, Tail.behind, Tail.along, Tail.more, Tail.close,
          push_append_ofList]
    | start c =>
      rcases path with - | ⟨s | s | p, path⟩ <;>
        simp [Trail.down, Segment.trail, Tail.behind, Tail.along, Tail.start, Tail.close]
    | slot p =>
      rcases path with - | ⟨s | s | p, path⟩ <;>
        simp [Trail.down, Segment.trail, Tail.behind, Tail.along, Tail.slot, Tail.close]

def Suggestion.withStem (input : List Word) (s : Suggestion) : Suggestion :=
  match input.getLast?, s.segments with
  | some w, .text _ :: _ => { s with stem := some w.text }
  | _, _ => s

theorem withStem_close (input : List Word) (q : List Label) :
    Suggestion.withStem input ⟨none, (Tail.along q).close⟩ = (Tail.along q).suggestion input := by
  rcases q with - | ⟨c | c | p, q⟩
  · simp [Suggestion.withStem, Tail.along, Tail.close, Tail.suggestion]
  · cases h : input.getLast? <;>
      simp [Suggestion.withStem, Tail.along, Tail.more, Tail.close, Tail.suggestion, h]
  · simp [Suggestion.withStem, Tail.along, Tail.start, Tail.close, Tail.suggestion]
  · simp [Suggestion.withStem, Tail.along, Tail.slot, Tail.close, Tail.suggestion]

def Node.collectCompletions (n : Node) (input : List Word) : List Suggestion :=
  (Segment.trail.collect (fun path => ⟨none, path.reverse⟩) n).map (Suggestion.withStem input)

theorem Node.collectCompletions_eq (n : Node) (input : List Word) :
    n.collectCompletions input = n.complete input := by
  rw [collectCompletions, Trail.collect_eq, List.map_map, complete, tails_eq, List.map_map]
  refine List.map_congr_left fun q _ => ?_
  rw [Function.comp_apply, Function.comp_apply, reverse_write_trail]
  exact withStem_close input q

end Phrasebook
