import Mathlib.Data.List.Lattice
import Phrasebook.Proofs.Arena.Nodes
import Phrasebook.Proofs.Trie.Numbering
import Phrasebook.Proofs.Trie.Rebuild

/-!
Trees that lie in an arena. A tree lies there when the node with the number of each of its positions
describes this position. Work below one position leaves every other node as it was, and what it does to
the tree is what storing the paths of a pattern, one by one, does.
-/

namespace Phrasebook

theorem Edges.sorted_image {α β : Type} {f : α → β} {edges : Edges α} (h : Sorted edges) :
    Sorted (edges.image f) :=
  List.pairwise_map.2 h

theorem Edges.look_eq_find? {α : Type} {edges : Edges α} (h : Sorted edges) (c : Char) :
    look c edges = find? c edges := by
  rw [look, scan_eq_find? h, fetch_eq_find? h, ite_self]

theorem Edges.image_put_of_mem {α β : Type} {f : α → β} {edges : Edges α} {c : Char} {a a' : α}
    (h : Sorted edges) (hmem : (c, a) ∈ edges) (hf : f a' = f a) :
    (put c a' edges).image f = edges.image f := by
  rw [← put_image, hf, put_image, put_of_mem h hmem]

theorem Slots.map_put_of_mem {α β : Type} {f : α → β} {slots : Slots α} {p : Placeholder} {a a' : α}
    (h : Sorted slots) (hmem : (p, a) ∈ slots) (hf : f a' = f a) :
    (put p a' slots).map (fun s => f s.2) = slots.map fun s => f s.2 := by
  induction slots with
  | nil => cases hmem
  | cons s rest ih =>
    obtain ⟨hs, hrest⟩ := List.pairwise_cons.1 h
    rcases List.mem_cons.1 hmem with rfl | hmem
    · rw [put, if_pos rfl, List.map_cons, List.map_cons, hf]
    · obtain ⟨hle, hne⟩ := hs _ hmem
      rw [put, if_neg hne, if_neg (String.not_lt.2 hle), List.map_cons, ih hrest hmem, List.map_cons]

namespace Node

variable {n m m' : Node} {e : Entry} {l : Label} {next i : Nat}

def cell (e : Entry) (n : Node) : Cell where
  kind := e
  chars := Edges.image number n.chars
  words := Edges.image number n.words
  lookups := n.slots.map fun s => s.2.number
  isEnd := n.isEnd

theorem cell_put_of_arc (h : n.Ordered) (ha : n.Arc l m) (hnumber : m'.number = m.number) :
    (n.put l m').cell e = n.cell e := by
  obtain ⟨number, isEnd, chars, words, slots⟩ := n
  cases l with
  | more c => exact congrArg (Cell.mk e · _ _ _) (Edges.image_put_of_mem h.chars ha hnumber)
  | start c => exact congrArg (Cell.mk e _ · _ _) (Edges.image_put_of_mem h.words ha hnumber)
  | slot p => exact congrArg (Cell.mk e _ _ · _) (Slots.map_put_of_mem h.slots ha hnumber)

theorem mem_numbers_iff : i ∈ n.numbers ↔ i = n.number ∨ ∃ l m, n.Arc l m ∧ i ∈ m.numbers := by
  rw [numbers_eq, List.mem_cons, List.mem_flatMap]
  simp only [Prod.exists, mem_arcs_iff]

theorem nodup_numbers_iff (h : n.Ordered) : n.numbers.Nodup ↔
    (∀ l m, n.Arc l m → n.number ∉ m.numbers ∧ m.numbers.Nodup) ∧
      ∀ l m k m', n.Arc l m → n.Arc k m' → l ≠ k → m.numbers.Disjoint m'.numbers := by
  rw [numbers_eq, List.nodup_cons, List.nodup_flatMap]
  constructor
  · intro hn
    obtain ⟨htop, hbelow, hpairwise⟩ := hn
    refine ⟨fun l m ha => ?_, fun l m k m' ha ha' hne => ?_⟩
    · have hmem := mem_arcs_iff.2 ha
      exact ⟨fun hnumber => htop (List.mem_flatMap.2 ⟨_, hmem, hnumber⟩), hbelow _ hmem⟩
    · have : Std.Symm (Function.onFun List.Disjoint fun a : Label × Node => a.2.numbers) :=
        ⟨fun _ _ hd => List.Disjoint.symm hd⟩
      refine hpairwise.forall (mem_arcs_iff.2 ha) (mem_arcs_iff.2 ha') ?_
      exact fun heq => hne (congrArg Prod.fst heq)
  · intro hn
    obtain ⟨hbelow, hdisjoint⟩ := hn
    refine ⟨fun htop => ?_, fun a ha => (hbelow _ _ (mem_arcs_iff.1 ha)).2, ?_⟩
    · obtain ⟨a, ha, hnumber⟩ := List.mem_flatMap.1 htop
      exact (hbelow _ _ (mem_arcs_iff.1 ha)).1 hnumber
    · have hlabels := h.labels_nodup
      rw [List.Nodup, List.pairwise_map] at hlabels
      refine hlabels.imp_of_mem fun ha hb hne => ?_
      exact hdisjoint _ _ _ _ (mem_arcs_iff.1 ha) (mem_arcs_iff.1 hb) hne

end Node

namespace Arena

variable {a a' a'' : Arena} {n n' n'' m m' : Node} {e : Entry} {l : Label} {i : NodeId}

structure Carries (a : Arena) (e : Entry) (n : Node) : Prop where
  ordered : n.Ordered
  nodup : n.numbers.Nodup
  cells : ∀ x ∈ n.positions e, a.nodes[x.2.number]? = some (x.2.cell x.1)

namespace Carries

theorem top (h : a.Carries e n) : a.nodes[n.number]? = some (n.cell e) := by
  refine h.cells (e, n) ?_
  rw [Node.positions_eq]
  exact List.mem_cons_self

theorem arc (h : a.Carries e n) (ha : n.Arc l m) : a.Carries l.entry m where
  ordered := h.ordered.arc ha
  nodup := (((Node.nodup_numbers_iff h.ordered).1 h.nodup).1 l m ha).2
  cells := by
    intro x hx
    refine h.cells x ?_
    rw [Node.positions_eq, List.mem_cons]
    exact .inr (List.mem_flatMap.2 ⟨(l, m), Node.mem_arcs_iff.2 ha, hx⟩)

theorem lt (h : a.Carries e n) (hi : i ∈ n.numbers) : i < a.nodes.length := by
  rw [← Node.map_number_positions e] at hi
  obtain ⟨x, hx, rfl⟩ := List.mem_map.1 hi
  exact (List.getElem?_eq_some_iff.1 (h.cells x hx)).1

theorem of_arcs (ho : n.Ordered) (hn : n.numbers.Nodup) (htop : a.nodes[n.number]? = some (n.cell e))
    (harcs : ∀ l m, n.Arc l m → a.Carries l.entry m) : a.Carries e n := by
  refine ⟨ho, hn, fun x hx => ?_⟩
  rw [Node.positions_eq, List.mem_cons] at hx
  rcases hx with rfl | hx
  · exact htop
  · obtain ⟨b, hb, hx⟩ := List.mem_flatMap.1 hx
    exact (harcs b.1 b.2 (Node.mem_arcs_iff.1 hb)).cells x hx

theorem kept (h : a.Carries e n) (hkept : ∀ i ∈ n.numbers, a'.nodes[i]? = a.nodes[i]?) :
    a'.Carries e n := by
  refine ⟨h.ordered, h.nodup, fun x hx => ?_⟩
  rw [hkept, h.cells x hx]
  rw [← Node.map_number_positions e]
  exact List.mem_map_of_mem hx

theorem fresh (h : a.nodes[i]? = some (.fresh e)) : a.Carries e (.fresh i) := by
  refine of_arcs (Node.ordered_fresh i) (List.nodup_singleton i) h fun l m ha => ?_
  have hmem := Node.mem_arcs_iff.2 ha
  rw [Node.arcs_fresh] at hmem
  cases hmem

theorem put (h : a.Carries e n) (hm : a'.Carries l.entry m)
    (htop : a'.nodes[n.number]? = some ((n.put l m).cell e)) (hnumber : n.number ∉ m.numbers)
    (hapart : ∀ k m', n.Arc k m' → k ≠ l → m.numbers.Disjoint m'.numbers)
    (hkept : ∀ k m', n.Arc k m' → k ≠ l → ∀ i ∈ m'.numbers, a'.nodes[i]? = a.nodes[i]?) :
    a'.Carries e (n.put l m) := by
  obtain ⟨hbelow, hdisjoint⟩ := (Node.nodup_numbers_iff h.ordered).1 h.nodup
  have hordered := h.ordered.put (l := l) hm.ordered
  refine of_arcs hordered ((Node.nodup_numbers_iff hordered).2 ⟨?_, ?_⟩) ?_ ?_
  · intro k m' ha
    rw [Node.number_put]
    rcases (Node.arc_put h.ordered).1 ha with ⟨-, rfl⟩ | ⟨-, ha⟩
    · exact ⟨hnumber, hm.nodup⟩
    · exact hbelow k m' ha
  · intro k m₁ k' m₂ ha₁ ha₂ hne
    rw [Node.arc_put h.ordered] at ha₁ ha₂
    rcases ha₁ with ⟨rfl, rfl⟩ | ⟨hk, ha₁⟩
    · rcases ha₂ with ⟨rfl, -⟩ | ⟨hk', ha₂⟩
      · exact absurd rfl hne
      · exact hapart k' m₂ ha₂ hk'
    · rcases ha₂ with ⟨rfl, rfl⟩ | ⟨hk', ha₂⟩
      · exact (hapart k m₁ ha₁ hk).symm
      · exact hdisjoint k m₁ k' m₂ ha₁ ha₂ hne
  · rw [Node.number_put, htop]
  · intro k m' ha
    rcases (Node.arc_put h.ordered).1 ha with ⟨rfl, rfl⟩ | ⟨hk, ha⟩
    · exact hm
    · exact (h.arc ha).kept (hkept k m' ha hk)

end Carries

/-- Work below a position has made the tree `n` there into `n'`, on the nodes of `n` and on new ones. -/
structure Reshaped (a a' : Arena) (e : Entry) (n n' : Node) : Prop where
  carries : a'.Carries e n'
  number_eq : n'.number = n.number
  numbers : ∀ i ∈ n'.numbers, i ∈ n.numbers ∨ a.nodes.length ≤ i
  grows : a.nodes.length ≤ a'.nodes.length
  kept : ∀ i < a.nodes.length, i ∉ n.numbers → a'.nodes[i]? = a.nodes[i]?

namespace Reshaped

theorem refl (h : a.Carries e n) : Reshaped a a e n n :=
  ⟨h, rfl, fun _ => .inl, Nat.le_refl _, fun _ _ _ => rfl⟩

theorem trans (h : Reshaped a a' e n n') (h' : Reshaped a' a'' e n' n'') :
    Reshaped a a'' e n n'' where
  carries := h'.carries
  number_eq := h'.number_eq.trans h.number_eq
  numbers := by
    intro i hi
    rcases h'.numbers i hi with hi | hi
    · exact h.numbers i hi
    · exact .inr (Nat.le_trans h.grows hi)
  grows := Nat.le_trans h.grows h'.grows
  kept := by
    intro i hlt hi
    have hnew : i ∉ n'.numbers := fun hi' => (h.numbers i hi').elim hi (Nat.not_le.2 hlt)
    rw [h'.kept i (Nat.lt_of_lt_of_le hlt h.grows) hnew, h.kept i hlt hi]

theorem under (h : a.Carries e n) (ha : n.Arc l m) (hm : Reshaped a a' l.entry m m') :
    Reshaped a a' e n (n.put l m') := by
  obtain ⟨hbelow, hdisjoint⟩ := (Node.nodup_numbers_iff h.ordered).1 h.nodup
  obtain ⟨hnumber, -⟩ := hbelow l m ha
  have hlt : n.number < a.nodes.length := h.lt Node.number_mem_numbers
  refine ⟨h.put hm.carries ?_ ?_ ?_ ?_, Node.number_put, ?_, hm.grows, ?_⟩
  · rw [hm.kept _ hlt hnumber, h.top, Node.cell_put_of_arc h.ordered ha hm.number_eq]
  · exact fun hi => (hm.numbers _ hi).elim hnumber (Nat.not_le.2 hlt)
  · intro k m₁ ha₁ hk i hi hi₁
    rcases hm.numbers i hi with hi | hi
    · exact hdisjoint k m₁ l m ha₁ ha hk hi₁ hi
    · exact Nat.not_le.2 ((h.arc ha₁).lt hi₁) hi
  · intro k m₁ ha₁ hk i hi
    exact hm.kept i ((h.arc ha₁).lt hi) fun hi' => hdisjoint k m₁ l m ha₁ ha hk hi hi'
  · intro i hi
    rcases Node.mem_numbers_iff.1 hi with rfl | ⟨k, m₁, ha₁, hi₁⟩
    · rw [Node.number_put]
      exact .inl Node.number_mem_numbers
    · rw [Node.arc_put h.ordered] at ha₁
      rcases ha₁ with ⟨-, rfl⟩ | ⟨-, ha₁⟩
      · exact (hm.numbers i hi₁).imp_left (Node.mem_numbers_of_arc ha)
      · exact .inl (Node.mem_numbers_of_arc ha₁ hi₁)
  · exact fun i hlt hi => hm.kept i hlt fun hi' => hi (Node.mem_numbers_of_arc ha hi')

end Reshaped
end Arena
end Phrasebook
