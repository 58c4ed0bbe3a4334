import Mathlib.Logic.Relation
import Phrasebook.Proofs.Arena.Registry
import Phrasebook.Proofs.Dictionary.Arrangement

/-!
How the nodes of all scopes lie in the arena. After any calls, refused ones among them, the index, the
names and the roots tell the scopes alike, every edge leads on to a node that was made later and says of
itself what the edge says of it, every node but a root is the target of one edge, and every node that
is not a root leads on to the end of a pattern.
-/

namespace Phrasebook

theorem Node.targets_cell (e : Entry) (n : Node) : (n.cell e).targets = n.targets := by
  simp only [Cell.targets, Node.cell, Edges.image, targets, arcs, List.map_append, List.map_map,
    Function.comp_def]

namespace Registry

open Relation (ReflTransGen)

variable {r : Registry} {d : Dictionary} {i j : NodeId} {id : ScopeId} {cell : Cell}
  {x : Entry × Node}

def kind? (r : Registry) (i : NodeId) : Option Entry := r.arena.nodes[i]?.map (·.kind)

def Leads (r : Registry) (i j : NodeId) : Prop :=
  ∃ cell, r.arena.nodes[i]? = some cell ∧ j ∈ cell.targets

structure Settled (r : Registry) (i : NodeId) (cell : Cell) : Prop where
  later : ∀ j ∈ cell.targets, i < j ∧ j < r.arena.nodes.length
  chars_sorted : Edges.Sorted cell.chars
  words_sorted : Edges.Sorted cell.words
  chars : ∀ c j, (c, j) ∈ cell.chars → r.kind? j = some (.char c)
  words : ∀ c j, (c, j) ∈ cell.words → r.kind? j = some (.char c)
  lookups : ∃ ps : List Placeholder, cell.lookups.map r.kind? = ps.map (fun p => some (.slot p)) ∧
    ps.Pairwise (fun p q => p.name ≤ q.name ∧ p ≠ q) ∧
    ∀ p ∈ ps, p.contexts ≠ [] ∧ ∀ id ∈ p.contexts, id < r.names.length
  chars_eq_nil : cell.kind.isChar = false → cell.chars = []
  root_open : cell.kind.isRoot = true → cell.isEnd = false
  live : cell.kind.isRoot = false →
    ∃ j last, ReflTransGen r.Leads i j ∧ r.arena.nodes[j]? = some last ∧ last.isEnd = true

structure LaidOut (r : Registry) : Prop where
  names_nodup : r.names.Nodup
  index_iff : ∀ name id, r.index.get? name = some id ↔ r.names[id]? = some name
  roots_length : r.roots.length = r.names.length
  root_iff : ∀ id i, r.roots[id]? = some i ↔ r.kind? i = some (.root id)
  entered : ∀ i cell, r.arena.nodes[i]? = some cell →
    (r.arena.nodes.flatMap Cell.targets).count i = if cell.kind.isRoot then 0 else 1
  settled : ∀ i cell, r.arena.nodes[i]? = some cell → r.Settled i cell

namespace Represents

variable (h : r.Represents d)
include h

theorem cell_eq (hx : x ∈ d.positions) :
    r.arena.nodes[x.2.number]? = some (x.2.cell x.1) := by
  obtain ⟨id, root, hroot, hx⟩ := Dictionary.mem_positions_iff.1 hx
  exact (h.carries id root hroot).cells x hx

theorem kind?_eq (hx : x ∈ d.positions) : r.kind? x.2.number = some x.1 := by
  rw [kind?, h.cell_eq hx]
  rfl

theorem exists_position (hd : d.Arranged) (hcell : r.arena.nodes[i]? = some cell) :
    ∃ x ∈ d.positions, x.2.number = i ∧ x.2.cell x.1 = cell := by
  obtain ⟨hlt, -⟩ := List.getElem?_eq_some_iff.1 hcell
  rw [h.length, ← List.mem_range, ← hd.numbers.mem_iff] at hlt
  obtain ⟨x, hx, rfl⟩ := List.mem_map.1 hlt
  exact ⟨x, hx, rfl, Option.some.inj ((h.cell_eq hx).symm.trans hcell)⟩

theorem root_iff (hd : d.Arranged) : r.roots[id]? = some i ↔ r.kind? i = some (.root id) := by
  rw [h.roots, Dictionary.getElem?_map_number, Option.map_eq_some_iff]
  constructor
  · intro hroot
    obtain ⟨root, hroot, rfl⟩ := hroot
    exact h.kind?_eq (Dictionary.root?_iff_mem_positions.1 hroot)
  · intro hkind
    obtain ⟨cell, hcell, hkind⟩ := Option.map_eq_some_iff.1 hkind
    obtain ⟨⟨e, n⟩, hx, rfl, rfl⟩ := h.exists_position hd hcell
    cases hkind
    exact ⟨n, Dictionary.root?_iff_mem_positions.2 hx, rfl⟩

theorem perm_cells (hd : d.Arranged) :
    r.arena.nodes.Perm (d.positions.map fun x => x.2.cell x.1) := by
  have hnodes : (List.range r.arena.nodes.length).filterMap (r.arena.nodes[·]?) = r.arena.nodes := by
    have hall : (List.range r.arena.nodes.length).map (r.arena.nodes[·]?) = r.arena.nodes.map some :=
      List.ext_getElem (by simp) fun i hi hi' => by simp
    have hsome := congrArg (List.filterMap id) hall
    rw [List.filterMap_map, List.filterMap_map, Function.id_comp, Function.id_comp,
      List.filterMap_some] at hsome
    exact hsome
  have hcells : (d.positions.map fun x => x.2.number).filterMap (r.arena.nodes[·]?) =
      d.positions.map fun x => x.2.cell x.1 := by
    rw [List.filterMap_map, ← List.filterMap_eq_map]
    exact List.filterMap_congr fun x hx => h.cell_eq hx
  rw [← hnodes, ← hcells, h.length]
  exact hd.numbers.symm.filterMap _

theorem leads_of_arc (hx : x ∈ d.positions) {l : Label} {m : Node} (ha : x.2.Arc l m) :
    r.Leads x.2.number m.number := by
  refine ⟨_, h.cell_eq hx, ?_⟩
  rw [Node.targets_cell]
  exact List.mem_map.2 ⟨(l, m), Node.mem_arcs_iff.2 ha, rfl⟩

theorem live (hd : d.Arranged) (hx : x ∈ d.positions) (hopen : x.1.isRoot = false) :
    ∃ j last, ReflTransGen r.Leads x.2.number j ∧ r.arena.nodes[j]? = some last ∧
      last.isEnd = true := by
  obtain ⟨y, hy, hend⟩ := (hd.placed x hx).live hopen
  have hreach : ReflTransGen r.Leads x.2.number y.2.number ∧ y ∈ d.positions :=
    Node.forall_mem_positions
      (P := fun e m => ReflTransGen r.Leads x.2.number m.number ∧ (e, m) ∈ d.positions)
      (fun e n l m hn ha => ⟨hn.1.tail (h.leads_of_arc hn.2 ha), ((hd.placed _ hn.2).arcs l m ha).1⟩)
      ⟨.refl, hx⟩ y hy
  exact ⟨_, _, hreach.1, h.cell_eq hreach.2, hend⟩

theorem settled (hd : d.Arranged) (hx : x ∈ d.positions) :
    r.Settled x.2.number (x.2.cell x.1) := by
  have hplaced := hd.placed x hx
  refine ⟨?_, Edges.sorted_image hplaced.chars, Edges.sorted_image hplaced.words, ?_, ?_, ?_, ?_, ?_,
    fun hopen => h.live hd hx hopen⟩
  · intro j hj
    rw [Node.targets_cell] at hj
    obtain ⟨⟨l, m⟩, ha, rfl⟩ := List.mem_map.1 hj
    obtain ⟨hm, hlt⟩ := hplaced.arcs l m (Node.mem_arcs_iff.1 ha)
    exact ⟨hlt, (List.getElem?_eq_some_iff.1 (h.cell_eq hm)).1⟩
  · intro c j hj
    obtain ⟨⟨c', m⟩, ha, heq⟩ := List.mem_map.1 hj
    cases heq
    exact h.kind?_eq (hplaced.arcs (.more c') m ha).1
  · intro c j hj
    obtain ⟨⟨c', m⟩, ha, heq⟩ := List.mem_map.1 hj
    cases heq
    exact h.kind?_eq (hplaced.arcs (.start c') m ha).1
  · refine ⟨x.2.slots.map Prod.fst, ?_, List.pairwise_map.2 hplaced.slots, ?_⟩
    · rw [Node.cell, List.map_map, List.map_map]
      refine List.map_congr_left fun s hs => ?_
      exact h.kind?_eq (hplaced.arcs (.slot s.1) s.2 hs).1
    · intro p hp
      obtain ⟨⟨p, m⟩, hs, rfl⟩ := List.mem_map.1 hp
      rw [h.names, Dictionary.length_names]
      exact hplaced.contexts p m hs
  · intro hkind
    have hnil := hplaced.chars_eq_nil hkind
    rw [Node.cell, hnil]
    rfl
  · exact fun hroot => hplaced.root_open hroot

end Represents

/-- Every call, refused or not, leaves the nodes of all scopes in this order. -/
theorem laidOut_ofCalls (calls : List Call) : (ofCalls calls).LaidOut := by
  have h := represents_ofCalls calls
  have hd := Dictionary.arranged_ofCalls calls
  refine ⟨?_, ?_, ?_, fun _ _ => h.root_iff hd, ?_, ?_⟩
  · rw [h.names]
    exact hd.names_nodup
  · intro name id
    rw [h.names, ← Dictionary.name?_eq, ← hd.resolve?_iff, ← h.resolve?]
    rfl
  · rw [h.roots_length, h.names, Dictionary.length_names]
  · intro i cell hcell
    obtain ⟨x, hx, rfl, rfl⟩ := h.exists_position hd hcell
    rw [((h.perm_cells hd).flatMap_right _).count_eq, List.flatMap_map]
    simp only [Node.targets_cell]
    exact hd.entered x hx
  · intro i cell hcell
    obtain ⟨x, hx, rfl, rfl⟩ := h.exists_position hd hcell
    exact h.settled hd hx

/-- The second pattern goes on from the word of the first and leaves a place for the scope itself. -/
example : let r := ofCalls [.define "trip" [.written "go", .written "gone <to:trip>"]]
    r.roots = [0] ∧ r.arena.nodes.map (·.targets) = [[1], [2], [3], [4], [5], []] ∧
      r.kind? 5 = some (.slot ⟨"to", [0]⟩) ∧
      r.arena.nodes.map (·.isEnd) = [false, false, true, false, false, true] := by cbv

end Registry
end Phrasebook
