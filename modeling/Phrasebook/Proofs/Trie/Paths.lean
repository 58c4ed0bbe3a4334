import Mathlib.Tactic.SplitIfs
import Phrasebook.Proofs.Trie.Search

/-!
The stored paths as the one view of a tree. In a tree whose lists are in order every step leads to
one position at most, storing a path adds this path and no other, and following the letters of a
word leads to the position whose paths are the ways on from there.
-/

namespace Phrasebook.Node

variable {n m stop : Node} {l k : Label} {q path : List Label} {next : Nat} {s : List Char}
  {c : Char}

def Arc (n : Node) : Label → Node → Prop
  | .more c, m => (c, m) ∈ n.chars
  | .start c, m => (c, m) ∈ n.words
  | .slot p, m => (p, m) ∈ n.slots

inductive Ordered : Node → Prop
  | mk {n : Node} (chars : Edges.Sorted n.chars) (words : Edges.Sorted n.words)
      (slots : Slots.Sorted n.slots) (arcs : ∀ l m, n.Arc l m → Ordered m) : Ordered n

namespace Ordered

theorem chars (h : n.Ordered) : Edges.Sorted n.chars := by cases h; assumption

theorem words (h : n.Ordered) : Edges.Sorted n.words := by cases h; assumption

theorem slots (h : n.Ordered) : Slots.Sorted n.slots := by cases h; assumption

theorem arc (h : n.Ordered) (ha : n.Arc l m) : m.Ordered := by
  cases h with
  | mk _ _ _ harcs => exact harcs l m ha

end Ordered

theorem ordered_fresh (number : Nat) : (fresh number).Ordered := by
  refine .mk ?_ ?_ ?_ ?_
  · exact .nil
  · exact .nil
  · exact .nil
  · intro l m ha
    cases l <;> simp [Arc, fresh, chars, words, Node.slots] at ha

theorem mem_edgePaths {label : Char → Label} {edges : List (Char × Node)} :
    q ∈ edgePaths label edges ↔ ∃ e ∈ edges, ∃ r ∈ e.2.paths, label e.1 :: r = q := by
  induction edges with
  | nil => simp [edgePaths]
  | cons e rest ih => simp [edgePaths, ih]

theorem mem_slotPaths {slots : List (Placeholder × Node)} :
    q ∈ slotPaths slots ↔ ∃ s ∈ slots, ∃ r ∈ s.2.paths, .slot s.1 :: r = q := by
  induction slots with
  | nil => simp [slotPaths]
  | cons s rest ih => simp [slotPaths, ih]

theorem mem_paths : q ∈ n.paths ↔ n.isEnd = true ∧ q = [] ∨
    ∃ l m, n.Arc l m ∧ ∃ r ∈ m.paths, l :: r = q := by
  have hlists : q ∈ n.paths ↔ n.isEnd = true ∧ q = [] ∨ q ∈ edgePaths .more n.chars ∨
      q ∈ edgePaths .start n.words ∨ q ∈ slotPaths n.slots := by
    cases n with
    | mk number isEnd chars words slots =>
      cases isEnd <;> simp [paths, Node.isEnd, Node.chars, Node.words, Node.slots]
  rw [hlists, mem_edgePaths, mem_edgePaths, mem_slotPaths]
  refine or_congr_right ⟨?_, ?_⟩
  · intro hm
    rcases hm with ⟨e, he, r, hr⟩ | ⟨e, he, r, hr⟩ | ⟨s, hs, r, hr⟩
    · exact ⟨.more e.1, e.2, he, r, hr⟩
    · exact ⟨.start e.1, e.2, he, r, hr⟩
    · exact ⟨.slot s.1, s.2, hs, r, hr⟩
  · intro hm
    obtain ⟨l, m, ha, r, hr⟩ := hm
    cases l with
    | more c => exact .inl ⟨(c, m), ha, r, hr⟩
    | start c => exact .inr (.inl ⟨(c, m), ha, r, hr⟩)
    | slot p => exact .inr (.inr ⟨(p, m), ha, r, hr⟩)

theorem nil_mem_paths : [] ∈ n.paths ↔ n.isEnd = true := by
  rw [mem_paths]
  simp

theorem cons_mem_paths : l :: q ∈ n.paths ↔ ∃ m, n.Arc l m ∧ q ∈ m.paths := by
  rw [mem_paths]
  constructor
  · intro hm
    rcases hm with ⟨-, hnil⟩ | ⟨k, m, ha, r, hr, heq⟩
    · cases hnil
    · cases heq
      exact ⟨m, ha, hr⟩
  · intro hm
    obtain ⟨m, ha, hq⟩ := hm
    exact .inr ⟨l, m, ha, q, hq, rfl⟩

theorem Ordered.arc_unique (h : n.Ordered) {m₁ m₂ : Node} (h₁ : n.Arc l m₁) (h₂ : n.Arc l m₂) :
    m₁ = m₂ := by
  cases l with
  | more c => exact h.chars.unique h₁ h₂
  | start c => exact h.words.unique h₁ h₂
  | slot p => exact h.slots.unique h₁ h₂

theorem Ordered.mem_paths_of_arc (h : n.Ordered) (ha : n.Arc l m) :
    q ∈ m.paths ↔ l :: q ∈ n.paths := by
  rw [cons_mem_paths]
  constructor
  · exact fun hq => ⟨m, ha, hq⟩
  · intro hm
    obtain ⟨m', ha', hq⟩ := hm
    rwa [h.arc_unique ha ha']

theorem child?_eq_some_iff (h : n.Ordered) : n.child? l = some m ↔ n.Arc l m := by
  cases l with
  | more c => exact Edges.find?_eq_some_iff h.chars
  | start c => exact Edges.find?_eq_some_iff h.words
  | slot p => exact Slots.find?_eq_some_iff h.slots

theorem not_arc_of_child?_eq_none (h : n.Ordered) (hl : n.child? l = none) : ¬ n.Arc l m := by
  rw [← child?_eq_some_iff h, hl]
  simp

theorem isEnd_put : (n.put l m).isEnd = n.isEnd := by
  cases n; cases l <;> rfl

theorem arc_put (h : n.Ordered) {m' : Node} :
    (n.put l m).Arc k m' ↔ k = l ∧ m' = m ∨ k ≠ l ∧ n.Arc k m' := by
  cases n with
  | mk number isEnd chars words slots =>
    cases l with
    | more c =>
      cases k <;> simp [put, Arc, Node.chars, Node.words, Node.slots,
        Edges.mem_put_iff (show Edges.Sorted chars from h.chars)]
    | start c =>
      cases k <;> simp [put, Arc, Node.chars, Node.words, Node.slots,
        Edges.mem_put_iff (show Edges.Sorted words from h.words)]
    | slot p =>
      cases k <;> simp [put, Arc, Node.chars, Node.words, Node.slots,
        Slots.mem_put_iff (show Slots.Sorted slots from h.slots)]

theorem Ordered.put (h : n.Ordered) (hm : m.Ordered) : (n.put l m).Ordered := by
  have hlists : Edges.Sorted (n.put l m).chars ∧ Edges.Sorted (n.put l m).words ∧
      Slots.Sorted (n.put l m).slots := by
    cases n
    cases l with
    | more c => exact ⟨Edges.sorted_put h.chars, h.words, h.slots⟩
    | start c => exact ⟨h.chars, Edges.sorted_put h.words, h.slots⟩
    | slot p => exact ⟨h.chars, h.words, Slots.sorted_put h.slots⟩
  refine .mk hlists.1 hlists.2.1 hlists.2.2 ?_
  intro k m' ha
  rcases (arc_put h).1 ha with ⟨-, rfl⟩ | ⟨-, ha⟩
  · exact hm
  · exact h.arc ha

theorem put_of_arc (h : n.Ordered) (ha : n.Arc l m) : n.put l m = n := by
  cases n with
  | mk number isEnd chars words slots =>
    cases l with
    | more c => exact congrArg (mk number isEnd · words slots) (Edges.put_of_mem h.chars ha)
    | start c => exact congrArg (mk number isEnd chars · slots) (Edges.put_of_mem h.words ha)
    | slot p => exact congrArg (mk number isEnd chars words ·) (Slots.put_of_mem h.slots ha)

theorem cons_mem_paths_put (h : n.Ordered) :
    k :: q ∈ (n.put l m).paths ↔ k = l ∧ q ∈ m.paths ∨ k ≠ l ∧ k :: q ∈ n.paths := by
  simp only [cons_mem_paths, arc_put h]
  constructor
  · intro hm
    obtain ⟨m', ⟨hk, rfl⟩ | ⟨hk, ha⟩, hq⟩ := hm
    · exact .inl ⟨hk, hq⟩
    · exact .inr ⟨hk, m', ha, hq⟩
  · intro hm
    rcases hm with ⟨hk, hq⟩ | ⟨hk, m', ha, hq⟩
    · exact ⟨m, .inl ⟨hk, rfl⟩, hq⟩
    · exact ⟨m', .inr ⟨hk, ha⟩, hq⟩

theorem arc_markEnd : n.markEnd.Arc l m ↔ n.Arc l m := by
  cases n; cases l <;> rfl

theorem isEnd_markEnd : n.markEnd.isEnd = true := by
  cases n; rfl

theorem Ordered.markEnd (h : n.Ordered) : n.markEnd.Ordered := by
  have hbelow : ∀ l m, n.markEnd.Arc l m → m.Ordered := fun l m ha => h.arc (arc_markEnd.1 ha)
  cases n
  exact .mk h.chars h.words h.slots hbelow

def entered (l : Label) (next : Nat) (n : Node) : Node × Nat :=
  match n.child? l with
  | some m => (m, next)
  | none => (fresh next, next + 1)

theorem insert_cons : (insert (l :: path) next n).1 =
    n.put l (insert path (n.entered l next).2 (n.entered l next).1).1 := by
  rw [entered, insert]
  cases n.child? l <;> rfl

theorem Ordered.entered (h : n.Ordered) : (n.entered l next).1.Ordered := by
  rw [Node.entered]
  cases hl : n.child? l with
  | none => exact ordered_fresh next
  | some m => exact h.arc ((child?_eq_some_iff h).1 hl)

theorem mem_paths_entered (h : n.Ordered) :
    q ∈ (n.entered l next).1.paths ↔ l :: q ∈ n.paths := by
  rw [entered]
  cases hl : n.child? l with
  | none =>
    have hnone : ¬ l :: q ∈ n.paths := by
      rw [cons_mem_paths]
      intro hm
      obtain ⟨m, ha, -⟩ := hm
      exact not_arc_of_child?_eq_none h hl ha
    simp [hnone, fresh, paths, edgePaths, slotPaths]
  | some m => exact h.mem_paths_of_arc ((child?_eq_some_iff h).1 hl)

theorem Ordered.insert (h : n.Ordered) : (insert path next n).1.Ordered := by
  induction path generalizing n next with
  | nil => exact h.markEnd
  | cons l path ih =>
    rw [insert_cons]
    exact h.put (ih h.entered)

/-- Nothing stored is lost and nothing but the path is new. -/
theorem mem_paths_insert (h : n.Ordered) :
    q ∈ (insert path next n).1.paths ↔ q = path ∨ q ∈ n.paths := by
  induction path generalizing n next q with
  | nil =>
    cases q with
    | nil => simp [insert, nil_mem_paths, isEnd_markEnd]
    | cons k q => simp [insert, cons_mem_paths, arc_markEnd]
  | cons l path ih =>
    rw [insert_cons]
    cases q with
    | nil => simp [nil_mem_paths, isEnd_put]
    | cons k q =>
      rw [cons_mem_paths_put h, ih h.entered, mem_paths_entered h, List.cons.injEq]
      by_cases hk : k = l
      · simp [hk]
      · simp [hk]

def insertAll (paths : List (List Label)) (next : Nat) (n : Node) : Node × Nat :=
  paths.foldl (fun s path => insert path s.2 s.1) (n, next)

theorem insertAll_cons (path : List Label) (paths : List (List Label)) (next : Nat) (n : Node) :
    insertAll (path :: paths) next n =
      insertAll paths (insert path next n).2 (insert path next n).1 := rfl

theorem insertAll_append (paths paths' : List (List Label)) (next : Nat) (n : Node) :
    insertAll (paths ++ paths') next n =
      insertAll paths' (insertAll paths next n).2 (insertAll paths next n).1 :=
  List.foldl_append

theorem Ordered.insertAll {paths : List (List Label)} (h : n.Ordered) :
    (insertAll paths next n).1.Ordered := by
  induction paths generalizing n next with
  | nil => exact h
  | cons path paths ih => exact ih h.insert

theorem mem_paths_insertAll {paths : List (List Label)} (h : n.Ordered) :
    q ∈ (insertAll paths next n).1.paths ↔ q ∈ paths ∨ q ∈ n.paths := by
  induction paths generalizing n next with
  | nil => simp [insertAll]
  | cons path paths ih =>
    rw [insertAll_cons, ih h.insert, mem_paths_insert h, List.mem_cons, or_left_comm, or_assoc]

theorem follow_paths (h : n.Ordered) (hf : follow s n = some stop) :
    stop.Ordered ∧ ∀ q, q ∈ stop.paths ↔ s.map .more ++ q ∈ n.paths := by
  induction s generalizing n with
  | nil =>
    simp only [follow, Option.some.injEq] at hf
    subst hf
    exact ⟨h, fun q => Iff.rfl⟩
  | cons c s ih =>
    obtain ⟨m, hm, hf⟩ := Option.bind_eq_some_iff.1 hf
    have ha : n.Arc (.more c) m := (Edges.find?_eq_some_iff h.chars).1 hm
    obtain ⟨hstop, hq⟩ := ih (h.arc ha) hf
    exact ⟨hstop, fun q => (hq q).trans (h.mem_paths_of_arc ha)⟩

theorem exists_follow (h : n.Ordered) (hq : s.map .more ++ q ∈ n.paths) :
    ∃ stop, follow s n = some stop := by
  induction s generalizing n with
  | nil => exact ⟨n, rfl⟩
  | cons c s ih =>
    obtain ⟨m, ha, hq⟩ := cons_mem_paths.1 hq
    obtain ⟨stop, hs⟩ := ih (h.arc ha) hq
    exact ⟨stop, by rw [follow, (Edges.find?_eq_some_iff h.chars).2 ha]; exact hs⟩

theorem spell_paths (h : n.Ordered) (hs : spell (c :: s) n = some stop) :
    stop.Ordered ∧ ∀ q, q ∈ stop.paths ↔ .start c :: (s.map .more ++ q) ∈ n.paths := by
  obtain ⟨m, hm, hf⟩ := Option.bind_eq_some_iff.1 hs
  have ha : n.Arc (.start c) m := (Edges.find?_eq_some_iff h.words).1 hm
  obtain ⟨hstop, hq⟩ := follow_paths (h.arc ha) hf
  exact ⟨hstop, fun q => (hq q).trans (h.mem_paths_of_arc ha)⟩

theorem exists_spell (h : n.Ordered) (hq : .start c :: (s.map .more ++ q) ∈ n.paths) :
    ∃ stop, spell (c :: s) n = some stop := by
  obtain ⟨m, ha, hq⟩ := cons_mem_paths.1 hq
  obtain ⟨stop, hs⟩ := exists_follow (h.arc ha) hq
  exact ⟨stop, by rw [spell, (Edges.find?_eq_some_iff h.words).2 ha]; exact hs⟩

end Phrasebook.Node
