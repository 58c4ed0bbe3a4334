import Mathlib.Data.List.Count
import Phrasebook.Proofs.Dictionary.Log

/-!
How the positions of a dictionary are laid out. After any calls, refused ones among them, the numbers
given out are the numbers of the positions, each position but a root is entered by one step from a
position with a smaller number, the steps are sorted and fit what they lead to, and every step leads on
to the end of a pattern.
-/

namespace Phrasebook

namespace Node

variable {n m r : Node} {e e₀ : Entry} {l : Label}

def targets (n : Node) : List Nat := n.arcs.map fun a => a.2.number

theorem mem_positions_of_arc (hn : (e, n) ∈ r.positions e₀) (ha : n.Arc l m) :
    (l.entry, m) ∈ r.positions e₀ := by
  induction r using arc_induction generalizing e₀ with
  | step r ih =>
    rw [positions_eq, List.mem_cons] at hn ⊢
    right
    rcases hn with heq | hn
    · cases heq
      refine List.mem_flatMap.2 ⟨(l, m), mem_arcs_iff.2 ha, ?_⟩
      rw [positions_eq]
      exact List.mem_cons_self
    · obtain ⟨a, hmem, hn⟩ := List.mem_flatMap.1 hn
      exact List.mem_flatMap.2 ⟨a, hmem, ih a.1 a.2 (mem_arcs_iff.1 hmem) hn⟩

theorem forall_mem_positions {P : Entry → Node → Prop}
    (step : ∀ e n l m, P e n → n.Arc l m → P l.entry m) (h : P e n) :
    ∀ x ∈ n.positions e, P x.1 x.2 := by
  induction n using arc_induction generalizing e with
  | step n ih =>
    intro x hx
    rw [positions_eq, List.mem_cons] at hx
    rcases hx with rfl | hx
    · exact h
    · obtain ⟨a, hmem, hx⟩ := List.mem_flatMap.1 hx
      have ha := mem_arcs_iff.1 hmem
      exact ih a.1 a.2 ha (step e n a.1 a.2 h ha) x hx

theorem exists_end_of_mem_paths {q : List Label} (hq : q ∈ n.paths) :
    ∃ x ∈ n.positions e, x.2.isEnd = true := by
  induction q generalizing n e with
  | nil =>
    rw [positions_eq]
    exact ⟨(e, n), List.mem_cons_self, nil_mem_paths.1 hq⟩
  | cons l q ih =>
    obtain ⟨m, ha, hq⟩ := cons_mem_paths.1 hq
    obtain ⟨x, hx, hend⟩ := @ih m l.entry hq
    refine ⟨x, ?_, hend⟩
    rw [positions_eq, List.mem_cons]
    exact .inr (List.mem_flatMap.2 ⟨(l, m), mem_arcs_iff.2 ha, hx⟩)

theorem flatMap_numbers_perm {α : Type} (l : List α) (f : α → Node) :
    (l.flatMap fun a => (f a).numbers).Perm ((l.map fun a => (f a).number) ++
      l.flatMap fun a => (f a).descendants.map fun x => x.2.number) := by
  have hperm := List.flatMap_append_perm l (fun a => [(f a).number])
    fun a => (f a).descendants.map fun x => x.2.number
  rw [← List.map_eq_flatMap] at hperm
  exact hperm.symm

theorem flatMap_targets (e : Entry) (n : Node) :
    ((n.positions e).flatMap fun x => x.2.targets).Perm (n.descendants.map fun x => x.2.number) := by
  induction n using arc_induction generalizing e with
  | step n ih =>
    have hbelow : ∀ arcs : List (Label × Node), (∀ a ∈ arcs, n.Arc a.1 a.2) →
        ((arcs.flatMap fun a => a.2.positions a.1.entry).flatMap fun x => x.2.targets).Perm
          (arcs.flatMap fun a => a.2.descendants.map fun x => x.2.number) := by
      intro arcs harcs
      rw [List.flatMap_assoc]
      exact List.Perm.flatMap_left _ fun a ha => ih a.1 a.2 (harcs a ha) a.1.entry
    rw [positions_eq, List.flatMap_cons]
    refine ((hbelow n.arcs fun a ha => mem_arcs_iff.1 ha).append_left _).trans ?_
    rw [descendants, List.map_flatMap]
    simp only [map_number_positions]
    exact (flatMap_numbers_perm n.arcs Prod.snd).symm

theorem isRoot_of_mem_descendants {x : Entry × Node} (hx : x ∈ n.descendants) :
    x.1.isRoot = false := by
  obtain ⟨a, -, hx⟩ := List.mem_flatMap.1 hx
  exact forall_mem_positions (P := fun e _ => e.isRoot = false)
    (fun _ _ l _ _ _ => l.isRoot_entry) a.1.isRoot_entry x hx

theorem Sound.arc (h : n.Sound) (ha : n.Arc l m) : m.Sound := by
  refine ⟨h.ordered.arc ha, fun q hq => ?_⟩
  have hpath := (h.ordered.mem_paths_of_arc ha).1 hq
  cases l with
  | more c =>
    obtain ⟨r, items, heq⟩ := h.spelled _ hpath
    rcases r with - | ⟨d, r⟩
    · rcases items with - | ⟨w | p, items⟩
      · cases heq
      · obtain ⟨d, s, hds⟩ := w.exists_letters
        rw [List.map_nil, List.nil_append, spelling_word w items hds] at heq
        cases heq
      · cases heq
    · exact ⟨r, items, (List.cons.inj heq).2⟩
  | start c =>
    obtain ⟨w, s, items, -, heq⟩ := h.exists_word hpath
    exact ⟨s, items, heq⟩
  | slot p => exact (h.slot ha).1.sound.spelled q hq

theorem Boundary.chars_eq_nil (h : n.Boundary) (hg : n.Grown) : n.chars = [] := by
  refine List.eq_nil_iff_forall_not_mem.2 fun e he => ?_
  have ha : n.Arc (.more e.1) e.2 := he
  obtain ⟨q, hq⟩ := List.exists_mem_of_ne_nil _ (hg.live ha)
  obtain ⟨items, heq⟩ := h.spelled _ ((h.ordered.mem_paths_of_arc ha).1 hq)
  rcases items with - | ⟨w | p, items⟩
  · cases heq
  · obtain ⟨d, s, hds⟩ := w.exists_letters
    rw [spelling_word w items hds] at heq
    cases heq
  · cases heq

structure Fit (n : Node) (count : Nat) (e : Entry) : Prop where
  sound : n.Sound
  grown : n.Grown
  usable : ∀ q ∈ n.paths, ∀ p, Label.slot p ∈ q →
    p.contexts ≠ [] ∧ ∀ id ∈ p.contexts, id < count
  boundary : e.isChar = false → n.Boundary
  root_open : e.isRoot = true → n.isEnd = false
  live : e.isRoot = false → n.paths ≠ []

theorem Fit.arc {count : Nat} (h : n.Fit count e) (ha : n.Arc l m) : m.Fit count l.entry where
  sound := h.sound.arc ha
  grown := h.grown.arc ha
  usable := by
    intro q hq p hp
    have hpath := (h.sound.ordered.mem_paths_of_arc ha).1 hq
    exact h.usable _ hpath p (List.mem_cons_of_mem l hp)
  boundary := by
    intro he
    cases l with
    | more c => cases he
    | start c => cases he
    | slot p => exact (h.sound.slot ha).1
  root_open := by
    intro he
    rw [l.isRoot_entry] at he
    cases he
  live := fun _ => h.grown.live ha

end Node

namespace Dictionary

variable {d : Dictionary} {id : ScopeId} {root : Node} {p : Placeholder}

def positions (d : Dictionary) : List (Entry × Node) :=
  d.scopes.zipIdx.flatMap fun s => s.1.root.positions (.root s.2)

theorem mem_positions_iff {x : Entry × Node} : x ∈ d.positions ↔
    ∃ id root, d.root? id = some root ∧ x ∈ root.positions (.root id) := by
  rw [positions, List.mem_flatMap]
  constructor
  · intro h
    obtain ⟨s, hs, hx⟩ := h
    exact ⟨s.2, s.1.root, by simp [root?, List.mem_zipIdx_iff_getElem?.1 hs], hx⟩
  · intro h
    obtain ⟨id, root, hroot, hx⟩ := h
    obtain ⟨name, hs⟩ := root?_eq_some_iff.1 hroot
    exact ⟨(⟨name, root⟩, id), List.mem_zipIdx_iff_getElem?.2 hs, hx⟩

theorem root?_iff_mem_positions : d.root? id = some root ↔ (.root id, root) ∈ d.positions := by
  rw [mem_positions_iff]
  constructor
  · intro hroot
    refine ⟨id, root, hroot, ?_⟩
    rw [Node.positions_eq]
    exact List.mem_cons_self
  · intro h
    obtain ⟨id', root', hroot, hmem⟩ := h
    rw [Node.positions_eq_cons, List.mem_cons] at hmem
    rcases hmem with heq | hmem
    · cases heq
      exact hroot
    · cases Node.isRoot_of_mem_descendants hmem

/-- What is true of a position that is entered by `e`. -/
structure Placed (d : Dictionary) (e : Entry) (n : Node) : Prop where
  arcs : ∀ l m, n.Arc l m → (l.entry, m) ∈ d.positions ∧ n.number < m.number
  chars : Edges.Sorted n.chars
  words : Edges.Sorted n.words
  slots : Slots.Sorted n.slots
  contexts : ∀ p m, (p, m) ∈ n.slots → p.contexts ≠ [] ∧ ∀ id ∈ p.contexts, id < d.scopes.length
  chars_eq_nil : e.isChar = false → n.chars = []
  root_open : e.isRoot = true → n.isEnd = false
  live : e.isRoot = false → ∃ x ∈ n.positions e, x.2.isEnd = true

structure Arranged (d : Dictionary) : Prop where
  names_nodup : d.names.Nodup
  resolve?_iff : ∀ name id, d.resolve? name = some id ↔ d.name? id = some name
  numbers : (d.positions.map fun x => x.2.number).Perm (List.range d.nodeCount)
  entered : ∀ x ∈ d.positions,
    (d.positions.flatMap fun y => y.2.targets).count x.2.number = if x.1.isRoot then 0 else 1
  placed : ∀ x ∈ d.positions, d.Placed x.1 x.2

theorem flatMap_positions {α : Type} (f : Entry × Node → List α) (g : Node → List α)
    (h : ∀ (e : Entry) (n : Node), ((n.positions e).flatMap f).Perm (g n)) :
    (d.positions.flatMap f).Perm (d.scopes.flatMap fun s => g s.root) := by
  have hscopes : d.scopes.flatMap (fun s => g s.root) =
      d.scopes.zipIdx.flatMap fun s => g s.1.root := by
    rw [← List.flatMap_map (f := Prod.fst) (g := fun s : Scope => g s.root), List.zipIdx_map_fst]
  rw [positions, List.flatMap_assoc, hscopes]
  exact List.Perm.flatMap_left _ fun s _ => h _ _

theorem perm_numbers (d : Dictionary) : (d.positions.map fun x => x.2.number).Perm
    (d.scopes.flatMap fun s => s.root.numbers) := by
  rw [List.map_eq_flatMap]
  refine flatMap_positions _ _ fun e n => ?_
  rw [← List.map_eq_flatMap, Node.map_number_positions]

theorem count_targets (hd : d.Numbered) {x : Entry × Node} (hx : x ∈ d.positions) :
    (d.positions.flatMap fun y => y.2.targets).count x.2.number =
      if x.1.isRoot then 0 else 1 := by
  have htargets := flatMap_positions (d := d) (fun y => y.2.targets) _ Node.flatMap_targets
  have hnodup : (d.scopes.flatMap fun s => s.root.numbers).Nodup :=
    hd.numbers.nodup_iff.2 List.nodup_range
  -- The roots' numbers apart, the numbers of all positions are those of the steps' targets.
  rw [(Node.flatMap_numbers_perm d.scopes Scope.root).nodup_iff, List.nodup_append'] at hnodup
  obtain ⟨-, hbelow, hdisjoint⟩ := hnodup
  rw [htargets.count_eq]
  obtain ⟨id, root, hroot, hx⟩ := mem_positions_iff.1 hx
  obtain ⟨name, hs⟩ := root?_eq_some_iff.1 hroot
  have hscope := List.mem_of_getElem? hs
  rw [Node.positions_eq_cons, List.mem_cons] at hx
  rcases hx with rfl | hx
  · have hnumber : root.number ∈ d.scopes.map fun s => s.root.number :=
      List.mem_map.2 ⟨_, hscope, rfl⟩
    rw [Entry.isRoot, if_pos rfl]
    exact List.count_eq_zero_of_not_mem fun hmem => hdisjoint hnumber hmem
  · rw [Node.isRoot_of_mem_descendants hx, if_neg (by simp)]
    refine List.count_eq_one_of_mem hbelow (List.mem_flatMap.2 ⟨_, hscope, ?_⟩)
    exact List.mem_map.2 ⟨x, hx, rfl⟩

theorem contexts_of_holds {log : List (String × Pattern)} (hd : d.Sound) (hlog : d.Records log)
    (hroot : d.root? id = some root) {items : List Item} (hheld : root.Holds items)
    (hp : Item.slot p ∈ items) : p.contexts ≠ [] ∧ ∀ i ∈ p.contexts, i < d.scopes.length := by
  refine ⟨?_, ((hd.tree hroot).fits hheld).known p hp⟩
  obtain ⟨s, hs, -⟩ := Option.map_eq_some_iff.1 hroot
  have hname : d.name? id = some s.name := by rw [name?, hs, Option.map_some]
  obtain ⟨pattern, hmem, -, steps, hsteps, hitems⟩ :=
    (hlog.held s.name id root (hd.resolve?_eq_some_iff.2 hname) hroot items).1 hheld
  exact contexts_ne_nil_of_chooses (hlog.filled _ hmem) hsteps hitems p hp

section Recorded
variable {log : List (String × Pattern)} (hd : d.Sound) (hnumbered : d.Numbered)
  (hlog : d.Records log) {x : Entry × Node}
include hd hnumbered hlog

theorem fit_of_mem_positions (hx : x ∈ d.positions) : x.2.Fit d.scopes.length x.1 := by
  obtain ⟨id, root, hroot, hmem⟩ := mem_positions_iff.1 hx
  have hstocked := hd.tree hroot
  obtain ⟨s, hs, rfl⟩ := Option.map_eq_some_iff.1 hroot
  have hfit : s.root.Fit d.scopes.length (.root id) := by
    refine ⟨hstocked.boundary.sound, hnumbered.grown s (List.mem_of_getElem? hs), ?_,
      fun _ => hstocked.boundary, ?_, nofun⟩
    · intro q hq p hp
      obtain ⟨items, -, rfl⟩ := hstocked.stored q hq
      exact contexts_of_holds hd hlog hroot hq (slot_mem_of_mem_spelling hp)
    · intro _
      rw [Bool.eq_false_iff]
      intro hend
      exact (hstocked.fits (Node.holds_nil.2 hend)).ne_nil rfl
  exact Node.forall_mem_positions (P := fun e n => n.Fit d.scopes.length e)
    (fun _ _ _ _ h ha => h.arc ha) hfit x hmem

theorem placed_of_mem_positions (hx : x ∈ d.positions) : d.Placed x.1 x.2 := by
  have h := fit_of_mem_positions hd hnumbered hlog hx
  refine ⟨?_, h.sound.ordered.chars, h.sound.ordered.words, h.sound.ordered.slots, ?_, ?_,
    h.root_open, ?_⟩
  · intro l m ha
    obtain ⟨id, root, hroot, hmem⟩ := mem_positions_iff.1 hx
    have hnext : (l.entry, m) ∈ root.positions (.root id) :=
      Node.mem_positions_of_arc (e := x.1) hmem ha
    exact ⟨mem_positions_iff.2 ⟨id, root, hroot, hnext⟩, h.grown.rises ha⟩
  · intro p m hp
    have ha : x.2.Arc (.slot p) m := hp
    obtain ⟨q, hq⟩ := List.exists_mem_of_ne_nil _ (h.grown.live ha)
    exact h.usable _ ((h.sound.ordered.mem_paths_of_arc ha).1 hq) p List.mem_cons_self
  · exact fun he => (h.boundary he).chars_eq_nil h.grown
  · intro he
    obtain ⟨q, hq⟩ := List.exists_mem_of_ne_nil _ (h.live he)
    exact Node.exists_end_of_mem_paths hq

end Recorded

theorem arranged_ofCalls (calls : List Call) : (ofCalls calls).Arranged := by
  have hd := sound_ofCalls calls
  have hnumbered := Numbered.ofCalls calls
  obtain ⟨log, hlog⟩ := exists_records calls
  exact {
    names_nodup := hd.names_nodup
    resolve?_iff := fun name id => hd.resolve?_eq_some_iff
    numbers := (perm_numbers _).trans hnumbered.numbers
    entered := fun x hx => count_targets hnumbered hx
    placed := fun x hx => placed_of_mem_positions hd hnumbered hlog hx }

end Dictionary
end Phrasebook
