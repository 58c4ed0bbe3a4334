import Mathlib.Data.List.Dedup
import Mathlib.Data.List.Infix
import Phrasebook.Proofs.Trie.Numbering

/-!
The positions below a root as beginnings of stored paths. Every position but the root stands for one
such beginning, and as every position leads to an end, every position is met.
-/

namespace Phrasebook

def prefixes {α : Type} (l : List α) : List (List α) := l.inits.tail

theorem mem_prefixes_iff {α : Type} {l r : List α} : r ∈ prefixes l ↔ r ≠ [] ∧ r <+: l := by
  cases l with
  | nil =>
    rw [List.prefix_nil]
    simp [prefixes]
  | cons x l =>
    rw [prefixes, List.inits_cons, List.tail_cons, List.mem_map]
    constructor
    · intro h
      obtain ⟨t, ht, rfl⟩ := h
      exact ⟨List.cons_ne_nil _ _, List.cons_prefix_cons.2 ⟨rfl, (List.mem_inits _ _).1 ht⟩⟩
    · intro h
      obtain ⟨hne, hr⟩ := h
      obtain ⟨y, t, rfl⟩ := List.exists_cons_of_ne_nil hne
      obtain ⟨rfl, ht⟩ := List.cons_prefix_cons.1 hr
      exact ⟨t, (List.mem_inits _ _).2 ht, rfl⟩

theorem prefixes_map {α β : Type} (f : α → β) (l : List α) :
    prefixes (l.map f) = (prefixes l).map (List.map f) := by
  rw [prefixes, prefixes, List.map_inits, List.map_tail]

theorem length_dedup_map {α β : Type} [DecidableEq α] [DecidableEq β] {f : α → β} {l : List α}
    (h : ∀ x ∈ l, ∀ y ∈ l, f x = f y → x = y) : (l.map f).dedup.length = l.dedup.length := by
  have hnodup : (l.dedup.map f).Nodup := by
    refine l.nodup_dedup.map_on fun x hx y hy => ?_
    exact h x (List.mem_dedup.1 hx) y (List.mem_dedup.1 hy)
  have hperm : (l.map f).dedup.Perm (l.dedup.map f) := by
    refine (List.perm_ext_iff_of_nodup (List.nodup_dedup _) hnodup).2 fun x => ?_
    simp
  rw [hperm.length_eq, List.length_map]

namespace Node

variable {n m : Node} {l : Label} {r : List Label}

def routes (n : Node) : List (List Label) := (n.paths.flatMap prefixes).dedup

theorem mem_routes_iff : r ∈ n.routes ↔ r ≠ [] ∧ ∃ q ∈ n.paths, r <+: q := by
  rw [routes, List.mem_dedup, List.mem_flatMap]
  simp only [mem_prefixes_iff]
  exact ⟨fun ⟨q, hq, hne, hr⟩ => ⟨hne, q, hq, hr⟩, fun ⟨hne, q, hq, hr⟩ => ⟨q, hq, hne, hr⟩⟩

theorem routes_nodup (n : Node) : n.routes.Nodup := List.nodup_dedup _

theorem cons_mem_routes_iff (hg : n.Grown) :
    l :: r ∈ n.routes ↔ ∃ m, n.Arc l m ∧ (r = [] ∨ r ∈ m.routes) := by
  rw [mem_routes_iff]
  constructor
  · intro h
    obtain ⟨-, q, hq, hr⟩ := h
    obtain ⟨k, q, rfl⟩ := List.exists_cons_of_ne_nil (hr.ne_nil (List.cons_ne_nil _ _))
    obtain ⟨rfl, hrest⟩ := List.cons_prefix_cons.1 hr
    obtain ⟨m, ha, hq⟩ := cons_mem_paths.1 hq
    refine ⟨m, ha, (em (r = [])).imp_right fun hne => ?_⟩
    exact mem_routes_iff.2 ⟨hne, q, hq, hrest⟩
  · intro h
    obtain ⟨m, ha, hr⟩ := h
    refine ⟨List.cons_ne_nil _ _, ?_⟩
    rcases hr with rfl | hr
    · obtain ⟨q, hq⟩ := List.exists_mem_of_ne_nil _ (hg.live ha)
      exact ⟨l :: q, cons_mem_paths.2 ⟨m, ha, hq⟩, by simp⟩
    · obtain ⟨-, q, hq, hr⟩ := mem_routes_iff.1 hr
      exact ⟨l :: q, cons_mem_paths.2 ⟨m, ha, hq⟩, List.cons_prefix_cons.2 ⟨rfl, hr⟩⟩

theorem routes_perm (h : n.Ordered) (hg : n.Grown) : n.routes.Perm
    (n.arcs.flatMap fun a => [a.1] :: a.2.routes.map (a.1 :: ·)) := by
  refine (List.perm_ext_iff_of_nodup n.routes_nodup ?_).2 ?_
  · refine List.nodup_flatMap.2 ⟨?_, ?_⟩
    · intro a _
      refine List.nodup_cons.2 ⟨?_, a.2.routes_nodup.map fun _ _ heq => (List.cons.inj heq).2⟩
      intro hmem
      obtain ⟨r, hr, heq⟩ := List.mem_map.1 hmem
      exact (mem_routes_iff.1 hr).1 (List.cons.inj heq).2
    · have hhead : ∀ a : Label × Node, ∀ r ∈ [a.1] :: a.2.routes.map (a.1 :: ·),
          r.head? = some a.1 := by
        intro a r hr
        rcases List.mem_cons.1 hr with rfl | hr
        · rfl
        · obtain ⟨r, -, rfl⟩ := List.mem_map.1 hr
          rfl
      have hlabels := h.labels_nodup
      rw [List.Nodup, List.pairwise_map] at hlabels
      refine hlabels.imp fun {a b} hne r hr hr' => hne ?_
      exact Option.some.inj ((hhead a r hr).symm.trans (hhead b r hr'))
  · intro r
    rw [List.mem_flatMap]
    cases r with
    | nil => simp [mem_routes_iff]
    | cons l r =>
      rw [cons_mem_routes_iff hg]
      constructor
      · intro hm
        obtain ⟨m, ha, hr⟩ := hm
        refine ⟨(l, m), mem_arcs_iff.2 ha, ?_⟩
        rcases hr with rfl | hr
        · exact List.mem_cons_self
        · exact List.mem_cons_of_mem _ (List.mem_map.2 ⟨r, hr, rfl⟩)
      · intro hm
        obtain ⟨a, ha, hmem⟩ := hm
        rcases List.mem_cons.1 hmem with heq | hmem
        · cases heq
          exact ⟨a.2, mem_arcs_iff.1 ha, .inl rfl⟩
        · obtain ⟨r, hr, heq⟩ := List.mem_map.1 hmem
          cases heq
          exact ⟨a.2, mem_arcs_iff.1 ha, .inr hr⟩

/-- There are as many positions below the root as beginnings of stored paths. -/
theorem length_routes (h : n.Ordered) (hg : n.Grown) : n.routes.length = n.descendants.length := by
  induction n using arc_induction with
  | step n ih =>
    rw [(routes_perm h hg).length_eq, descendants, List.length_flatMap, List.length_flatMap]
    refine congrArg List.sum (List.map_congr_left fun a ha => ?_)
    have harc := mem_arcs_iff.1 (show (a.1, a.2) ∈ n.arcs from ha)
    rw [List.length_cons, List.length_map, ih a.1 a.2 harc (h.arc harc) (hg.arc harc),
      positions_eq_cons, List.length_cons]

end Node
end Phrasebook
