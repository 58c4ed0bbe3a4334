import Phrasebook.Proofs.Arena.Laying

/-!
Patterns are inserted in an arena step by step. Each step finds the node it leads to or makes it, as
storing a path does in the tree that lies there, so inserting a pattern comes to storing all its paths.
-/

namespace Phrasebook

namespace Node

variable {n m : Node} {e : Entry} {c : Char} {p : Placeholder}

theorem look_chars (h : n.Ordered) :
    (n.cell e).chars.look c = (n.child? (.more c)).map number := by
  rw [cell, Edges.look_eq_find? (Edges.sorted_image h.chars), Edges.find?_image, child?]

theorem look_words (h : n.Ordered) :
    (n.cell e).words.look c = (n.child? (.start c)).map number := by
  rw [cell, Edges.look_eq_find? (Edges.sorted_image h.words), Edges.find?_image, child?]

theorem cell_put_more (h : n.Ordered) :
    (n.put (.more c) m).cell e = (n.cell e).fileEdge .char c m.number := by
  obtain ⟨number, isEnd, chars, words, slots⟩ := n
  have hfile := Edges.file_eq_put (Edges.sorted_image (f := Node.number) h.chars) c m.number
  rw [Edges.put_image] at hfile
  exact congrArg (Cell.mk e · _ _ _) hfile.symm

theorem cell_put_start (h : n.Ordered) :
    (n.put (.start c) m).cell e = (n.cell e).fileEdge .word c m.number := by
  obtain ⟨number, isEnd, chars, words, slots⟩ := n
  have hfile := Edges.file_eq_put (Edges.sorted_image (f := Node.number) h.words) c m.number
  rw [Edges.put_image] at hfile
  exact congrArg (Cell.mk e _ · _ _) hfile.symm

end Node

namespace Arena
open InPlace

variable {a a' : Arena} {n m : Node} {e : Entry} {l : Label} {i : NodeId} {cell : Cell} {c : Char}
  {p : Placeholder} {slots : Slots Node}

theorem outcome_node (h : a.nodes[i]? = some cell) : (node i).outcome a = (.ok cell, a) := by
  rw [node, outcome_bind_ok outcome_get, h]
  rfl

theorem outcome_change (h : a.nodes[i]? = some cell) (f : Cell → Cell) :
    (change i f).outcome a = (.ok ⟨⟩, ⟨a.nodes.set i (f cell)⟩) := by
  rw [change, outcome_bind_ok (outcome_node h)]
  rfl

theorem outcome_alloc (kind : Entry) (a : Arena) :
    (alloc kind).outcome a = (.ok a.nodes.length, ⟨a.nodes ++ [Cell.fresh kind]⟩) := rfl

theorem getElem?_alloc (h : a.nodes[i]? = some cell) (kind : Entry) :
    (a.nodes ++ [Cell.fresh kind])[i]? = some cell := by
  obtain ⟨hlt, -⟩ := List.getElem?_eq_some_iff.1 h
  rw [List.getElem?_append_left hlt, h]

def opened (a : Arena) (e : Entry) (n : Node) (l : Label) : Arena :=
  ⟨(a.nodes ++ [Cell.fresh l.entry]).set n.number ((n.put l (.fresh a.nodes.length)).cell e)⟩

theorem outcome_findLookup
    (h : ∀ s ∈ slots, ∃ cell, a.nodes[s.2.number]? = some cell ∧ cell.kind = .slot s.1) :
    (findLookup p (slots.map fun s => s.2.number)).outcome a =
      (.ok ((slots.find? p).map Node.number), a) := by
  induction slots with
  | nil => rfl
  | cons s rest ih =>
    obtain ⟨⟨cell, hcell, hkind⟩, hrest⟩ := List.forall_mem_cons.1 h
    rw [List.map_cons, findLookup, outcome_bind_ok (outcome_node hcell), Slots.find?, hkind]
    simp only [Entry.slot.injEq]
    split_ifs with hp
    · rfl
    · exact ih hrest

theorem outcome_fileLookup (m : Node)
    (h : ∀ s ∈ slots, ∃ cell, a.nodes[s.2.number]? = some cell ∧ cell.kind = .slot s.1)
    (hnew : slots.find? p = none) :
    (fileLookup p m.number (slots.map fun s => s.2.number)).outcome a =
      (.ok ((Slots.put p m slots).map fun s => s.2.number), a) := by
  induction slots with
  | nil => rfl
  | cons s rest ih =>
    obtain ⟨⟨cell, hcell, hkind⟩, hrest⟩ := List.forall_mem_cons.1 h
    rw [Slots.find?] at hnew
    split_ifs at hnew with hp
    rw [List.map_cons, fileLookup, outcome_bind_ok (outcome_node hcell), Slots.put, if_neg hp, hkind]
    dsimp only
    split_ifs with hlt
    · rfl
    · rw [outcome_bind_ok (ih hrest hnew)]
      rfl

theorem Carries.kind_of_slot (h : a.Carries e n) :
    ∀ s ∈ n.slots, ∃ cell, a.nodes[s.2.number]? = some cell ∧ cell.kind = .slot s.1 := by
  intro s hs
  have ha : n.Arc (.slot s.1) s.2 := hs
  exact ⟨_, (h.arc ha).top, rfl⟩

theorem Reshaped.opened (h : a.Carries e n) (l : Label) :
    Reshaped a (a.opened e n l) e n (n.put l (.fresh a.nodes.length)) := by
  have hlt : n.number < a.nodes.length := h.lt Node.number_mem_numbers
  have hold : ∀ i < a.nodes.length, i ≠ n.number → (a.opened e n l).nodes[i]? = a.nodes[i]? := by
    intro i hi hne
    rw [Arena.opened, List.getElem?_set_ne hne.symm, List.getElem?_append_left hi]
  have hfresh : (Node.fresh a.nodes.length).numbers = [a.nodes.length] := rfl
  obtain ⟨hbelow, -⟩ := (Node.nodup_numbers_iff h.ordered).1 h.nodup
  refine ⟨h.put ?_ ?_ ?_ ?_ ?_, Node.number_put, ?_, ?_, ?_⟩
  · have hne : n.number ≠ a.nodes.length := Nat.ne_of_lt hlt
    refine .fresh ?_
    rw [Arena.opened, List.getElem?_set_ne hne]
    exact List.getElem?_concat_length
  · exact List.getElem?_set_self (by simp; omega)
  · rw [hfresh, List.mem_singleton]
    exact Nat.ne_of_lt hlt
  · intro k m' ha _ i hi hi'
    rw [hfresh, List.mem_singleton] at hi
    exact Nat.ne_of_lt ((h.arc ha).lt hi') hi
  · intro k m' ha _ i hi
    refine hold i ((h.arc ha).lt hi) ?_
    rintro rfl
    exact (hbelow k m' ha).1 hi
  · intro i hi
    rcases Node.mem_numbers_iff.1 hi with rfl | ⟨k, m', ha, hi⟩
    · rw [Node.number_put]
      exact .inl Node.number_mem_numbers
    · rw [Node.arc_put h.ordered] at ha
      rcases ha with ⟨-, rfl⟩ | ⟨-, ha⟩
      · exact .inr (Nat.le_of_eq (List.mem_singleton.1 hi).symm)
      · exact .inl (Node.mem_numbers_of_arc ha hi)
  · simp [Arena.opened]
  · intro i hi hnew
    refine hold i hi ?_
    rintro rfl
    exact hnew Node.number_mem_numbers

theorem Reshaped.ended (h : a.Carries e n) :
    Reshaped a ⟨a.nodes.set n.number { n.cell e with isEnd := true }⟩ e n n.markEnd := by
  have hlt : n.number < a.nodes.length := h.lt Node.number_mem_numbers
  obtain ⟨hbelow, -⟩ := (Node.nodup_numbers_iff h.ordered).1 h.nodup
  refine ⟨?_, Node.number_markEnd, ?_, by simp, ?_⟩
  · refine .of_arcs h.ordered.markEnd (by rw [Node.numbers_markEnd]; exact h.nodup) ?_ ?_
    · rw [Node.number_markEnd, List.getElem?_set_self hlt]
      cases n
      rfl
    · intro l m ha
      rw [Node.arc_markEnd] at ha
      refine (h.arc ha).kept fun i hi => List.getElem?_set_ne ?_
      rintro rfl
      exact (hbelow l m ha).1 hi
  · intro i hi
    rw [Node.numbers_markEnd] at hi
    exact .inl hi
  · intro i _ hi
    refine List.getElem?_set_ne ?_
    rintro rfl
    exact hi Node.number_mem_numbers

def enter (parent : NodeId) : Label → Laying NodeId
  | .more c => ensureChild parent .char c
  | .start c => ensureChild parent .word c
  | .slot p => ensureLookup parent p

/-- The start of a scope has no letters of its own to go on with. -/
def Allows (e : Entry) : Label → Prop
  | .more _ => e.isRoot = false
  | _ => True

theorem outcome_ensureChild_of_some {edge : Edge} {child : NodeId} (hcell : a.nodes[i]? = some cell)
    (hlook : (cell.edges edge).look c = some child) :
    (ensureChild i edge c).outcome a = (.ok child, a) := by
  rw [ensureChild, outcome_bind_ok (outcome_node hcell), hlook]
  rfl

theorem outcome_ensureChild_of_none {edge : Edge} (hcell : a.nodes[i]? = some cell)
    (hlook : (cell.edges edge).look c = none) (hallowed : edge = .char → cell.kind.isRoot = false) :
    (ensureChild i edge c).outcome a = (.ok a.nodes.length,
      ⟨(a.nodes ++ [Cell.fresh (.char c)]).set i (cell.fileEdge edge c a.nodes.length)⟩) := by
  have hopen : ¬ (edge = .char ∧ cell.kind.isRoot = true) := by
    intro hroot
    rw [hallowed hroot.1] at hroot
    exact Bool.false_ne_true hroot.2
  rw [ensureChild, outcome_bind_ok (outcome_node hcell), hlook]
  dsimp only
  rw [if_neg hopen, outcome_bind_ok (outcome_alloc _ _),
    outcome_bind_ok (outcome_change (getElem?_alloc hcell _) _)]
  rfl

theorem outcome_enter_of_some (h : a.Carries e n) (hl : n.child? l = some m) :
    (enter n.number l).outcome a = (.ok m.number, a) := by
  cases l with
  | more c =>
    refine outcome_ensureChild_of_some h.top ?_
    rw [Cell.edges, Node.look_chars h.ordered, hl, Option.map_some]
  | start c =>
    refine outcome_ensureChild_of_some h.top ?_
    rw [Cell.edges, Node.look_words h.ordered, hl, Option.map_some]
  | slot p =>
    have hfound : n.slots.find? p = some m := hl
    have hfind : (findLookup p (n.cell e).lookups).outcome a = (.ok (some m.number), a) := by
      rw [Node.cell, outcome_findLookup h.kind_of_slot, hfound, Option.map_some]
    rw [enter, ensureLookup, outcome_bind_ok (outcome_node h.top), outcome_bind_ok hfind]
    rfl

theorem outcome_ensureLookup_of_none (h : a.Carries e n) (hnew : n.slots.find? p = none) :
    (ensureLookup n.number p).outcome a = (.ok a.nodes.length, a.opened e n (.slot p)) := by
  have hfind : (findLookup p (n.cell e).lookups).outcome a = (.ok none, a) := by
    rw [Node.cell, outcome_findLookup h.kind_of_slot, hnew, Option.map_none]
  have hkinds : ∀ s ∈ n.slots, ∃ cell,
      (a.nodes ++ [Cell.fresh (.slot p)])[s.2.number]? = some cell ∧ cell.kind = .slot s.1 := by
    intro s hs
    obtain ⟨cell, hcell, hkind⟩ := h.kind_of_slot s hs
    exact ⟨cell, getElem?_alloc hcell _, hkind⟩
  have hfile : (fileLookup p a.nodes.length (n.cell e).lookups).outcome
      ⟨a.nodes ++ [Cell.fresh (.slot p)]⟩ = _ :=
    outcome_fileLookup (.fresh a.nodes.length) hkinds hnew
  have htop := getElem?_alloc h.top (.slot p)
  rw [ensureLookup, outcome_bind_ok (outcome_node h.top), outcome_bind_ok hfind]
  dsimp only
  rw [outcome_bind_ok (outcome_alloc _ _), outcome_bind_ok (outcome_node htop),
    outcome_bind_ok hfile, outcome_bind_ok (outcome_change htop _)]
  cases n
  rfl

theorem outcome_enter_of_none (h : a.Carries e n) (hallows : Allows e l) (hl : n.child? l = none) :
    (enter n.number l).outcome a = (.ok a.nodes.length, a.opened e n l) := by
  cases l with
  | more c =>
    have hlook : ((n.cell e).edges .char).look c = none := by
      rw [Cell.edges, Node.look_chars h.ordered, hl, Option.map_none]
    rw [enter, outcome_ensureChild_of_none h.top hlook fun _ => hallows, opened,
      Node.cell_put_more h.ordered]
    rfl
  | start c =>
    have hlook : ((n.cell e).edges .word).look c = none := by
      rw [Cell.edges, Node.look_words h.ordered, hl, Option.map_none]
    rw [enter, outcome_ensureChild_of_none h.top hlook nofun, opened, Node.cell_put_start h.ordered]
    rfl
  | slot p => exact outcome_ensureLookup_of_none h hl

/-- Done at a position, the work stores the paths below it. -/
def Stores (e : Entry) (work : NodeId → Laying Unit) (paths : List (List Label)) : Prop :=
  ∀ a n, a.Carries e n → ∃ a', (work n.number).outcome a = (.ok ⟨⟩, a') ∧
    Reshaped a a' e n (Node.insertAll paths a.nodes.length n).1 ∧
    a'.nodes.length = (Node.insertAll paths a.nodes.length n).2

namespace Stores

variable {work work' : NodeId → Laying Unit} {paths paths' : List (List Label)}

theorem nil : Stores e (fun _ => pure ⟨⟩) [] :=
  fun a _ h => ⟨a, rfl, .refl h, rfl⟩

theorem markEnd : Stores e Arena.markEnd [[]] := by
  intro a n h
  exact ⟨_, outcome_change h.top _, .ended h, List.length_set⟩

theorem append (h : Stores e work paths) (h' : Stores e work' paths') :
    Stores e (fun i => do work i; work' i) (paths ++ paths') := by
  intro a n hn
  obtain ⟨a₁, hrun₁, hreshaped₁, hlength₁⟩ := h a n hn
  obtain ⟨a₂, hrun₂, hreshaped₂, hlength₂⟩ := h' a₁ _ hreshaped₁.carries
  rw [hreshaped₁.number_eq] at hrun₂
  rw [hlength₁] at hreshaped₂ hlength₂
  rw [Node.insertAll_append]
  exact ⟨a₂, (outcome_bind_ok hrun₁ _).trans hrun₂, hreshaped₁.trans hreshaped₂, hlength₂⟩

theorem under (h : Stores l.entry work paths) (hallows : Allows e l) (hne : paths ≠ []) :
    Stores e (fun i => do work (← enter i l)) (paths.map (l :: ·)) := by
  intro a n hn
  rw [Node.insertAll_map_cons hn.ordered hne, Node.entered]
  cases hl : n.child? l with
  | some m =>
    have ha : n.Arc l m := (Node.child?_eq_some_iff hn.ordered).1 hl
    obtain ⟨a', hrun, hreshaped, hlength⟩ := h a m (hn.arc ha)
    exact ⟨a', (outcome_bind_ok (outcome_enter_of_some hn hl) _).trans hrun,
      .under hn ha hreshaped, hlength⟩
  | none =>
    have hopened := Reshaped.opened hn l
    have hfresh := Node.ordered_fresh a.nodes.length
    have ha : (n.put l (.fresh a.nodes.length)).Arc l (.fresh a.nodes.length) :=
      (Node.child?_eq_some_iff hopened.carries.ordered).1 (Node.child?_put hn.ordered hfresh)
    have hlength : (a.opened e n l).nodes.length = a.nodes.length + 1 := by simp [opened]
    obtain ⟨a', hrun, hreshaped, hlength'⟩ := h _ _ (hopened.carries.arc ha)
    have hunder := Reshaped.under hopened.carries ha hreshaped
    rw [Node.put_put, hlength] at hunder
    rw [hlength] at hlength'
    exact ⟨a', (outcome_bind_ok (outcome_enter_of_none hn hallows hl) _).trans hrun,
      hopened.trans hunder, hlength'⟩

theorem letters (h : ∀ e, Stores e work paths) (hne : paths ≠ []) (s : List Char)
    (he : e.isRoot = false) :
    Stores e (fun i => do work (← s.foldlM (fun current c => ensureChild current .char c) i))
      (paths.map (s.map .more ++ ·)) := by
  induction s generalizing e with
  | nil =>
    have hpaths : paths.map (([] : List Char).map Label.more ++ ·) = paths := List.map_id paths
    rw [hpaths]
    exact h e
  | cons c s ih =>
    have hrest := ih (e := .char c) rfl
    have hunder := under (l := .more c) hrest he (by simpa using hne)
    rw [List.map_map] at hunder
    simp only [List.foldlM_cons, bind_assoc]
    exact hunder

theorem places {rest : List Step} (h : ∀ e, Stores e (advance · rest) (Step.paths rest))
    (hne : Step.paths rest ≠ []) (ps : List Placeholder) :
    Stores e (fun i => ps.forM fun p => do advance (← ensureLookup i p) rest)
      (ps.flatMap fun p => (Step.paths rest).map (.slot p :: ·)) := by
  induction ps with
  | nil => exact nil
  | cons p ps ih => exact append (under (l := .slot p) (h _) trivial hne) ih

end Stores

end Arena

def Step.Filled : Step → Prop
  | .word _ => True
  | .places ps => ps ≠ []

theorem Step.paths_ne_nil {steps : List Step} (h : ∀ s ∈ steps, s.Filled) :
    Step.paths steps ≠ [] := by
  induction steps with
  | nil => exact List.cons_ne_nil _ _
  | cons s rest ih =>
    obtain ⟨hs, hrest⟩ := List.forall_mem_cons.1 h
    have hchoices : s.choices ≠ [] := by
      cases s with
      | word w => exact List.cons_ne_nil _ _
      | places ps => simpa [choices, Filled] using hs
    obtain ⟨head, hhead⟩ := List.exists_mem_of_ne_nil _ hchoices
    obtain ⟨q, hq⟩ := List.exists_mem_of_ne_nil _ (ih hrest)
    exact List.ne_nil_of_mem (List.mem_flatMap.2 ⟨head, hhead, List.mem_map_of_mem hq⟩)

namespace Arena

theorem stores_advance {steps : List Step} (h : ∀ s ∈ steps, s.Filled) (e : Entry) :
    Stores e (advance · steps) (Step.paths steps) := by
  induction steps generalizing e with
  | nil =>
    have hend : (advance · []) = markEnd := by
      funext i
      rw [advance]
      rfl
    rw [hend]
    exact .markEnd
  | cons s rest ih =>
    obtain ⟨-, hrest⟩ := List.forall_mem_cons.1 h
    have hadvance := ih hrest
    have hne := Step.paths_ne_nil hrest
    cases s with
    | word w =>
      obtain ⟨c, s, hcs⟩ := w.exists_letters
      have hwork : (advance · (.word w :: rest)) = fun i => (do
          let first ← enter i (.start c)
          advance (← s.foldlM (fun current c => ensureChild current .char c) first) rest) := by
        funext i
        rw [advance, List.isEmpty_cons, if_neg Bool.false_ne_true, insert, hcs]
        rfl
      have hpaths : Step.paths (.word w :: rest) =
          ((Step.paths rest).map (s.map .more ++ ·)).map (.start c :: ·) := by
        rw [Step.paths, Step.choices, hcs, Step.spelled, List.flatMap_singleton, List.map_map]
        rfl
      rw [hwork, hpaths]
      exact (Stores.letters hadvance hne s rfl).under trivial (by simpa using hne)
    | places ps =>
      have hwork : (advance · (.places ps :: rest)) = fun i => (ps.forM fun p => do
          advance (← ensureLookup i p) rest) := by
        funext i
        rw [advance, List.isEmpty_cons, if_neg Bool.false_ne_true, insert]
      have hpaths : Step.paths (.places ps :: rest) =
          ps.flatMap fun p => (Step.paths rest).map (.slot p :: ·) := by
        rw [Step.paths, Step.choices, List.flatMap_map]
        rfl
      rw [hwork, hpaths]
      exact .places hadvance hne ps

/-- A pattern that is not empty is inserted as its paths are stored. -/
theorem stores_insert {steps : List Step} (h : ∀ s ∈ steps, s.Filled) (hne : steps ≠ [])
    (e : Entry) : Stores e (insert · steps) (Step.paths steps) := by
  have hwork : (insert · steps) = (advance · steps) := by
    funext i
    rw [advance, if_neg (by simpa using hne)]
  rw [hwork]
  exact stores_advance h e

end Arena
end Phrasebook
