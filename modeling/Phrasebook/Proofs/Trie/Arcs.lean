import Mathlib.Data.List.Nodup
import Mathlib.Data.List.Perm.Basic
import Phrasebook.Proofs.Trie.Paths
import Phrasebook.Trie.Numbered

/-!
The steps that leave a position, in one list: letters inside the word, first letters of the next word,
open places. The paths and the positions of a tree are told by this list, and in an ordered tree no
label is in it twice, so that no path is stored twice and putting a step replaces at most one other.
-/

namespace Phrasebook

def Label.entry : Label → Entry
  | .more c | .start c => .char c
  | .slot p => .slot p

theorem Label.isRoot_entry (l : Label) : l.entry.isRoot = false := by
  cases l <;> rfl

namespace Node

variable {n m : Node} {l k : Label} {q : List Label}

def arcs (n : Node) : List (Label × Node) :=
  n.chars.map (fun e => (.more e.1, e.2)) ++ n.words.map (fun e => (.start e.1, e.2)) ++
    n.slots.map (fun s => (.slot s.1, s.2))

theorem mem_arcs_iff : (l, m) ∈ n.arcs ↔ n.Arc l m := by
  cases l <;> simp [arcs, Arc]

theorem arcs_fresh (number : Nat) : (fresh number).arcs = [] := rfl

theorem sizeOf_lt_of_arc (h : n.Arc l m) : sizeOf m < sizeOf n := by
  cases n with
  | mk number isEnd chars words slots =>
    cases l with
    | more c =>
      have hmem := List.sizeOf_lt_of_mem (show (c, m) ∈ chars from h)
      simp only [Prod.mk.sizeOf_spec, mk.sizeOf_spec] at hmem ⊢
      omega
    | start c =>
      have hmem := List.sizeOf_lt_of_mem (show (c, m) ∈ words from h)
      simp only [Prod.mk.sizeOf_spec, mk.sizeOf_spec] at hmem ⊢
      omega
    | slot p =>
      have hmem := List.sizeOf_lt_of_mem (show (p, m) ∈ slots from h)
      simp only [Prod.mk.sizeOf_spec, mk.sizeOf_spec] at hmem ⊢
      omega

theorem arc_induction {motive : Node → Prop}
    (step : ∀ n, (∀ l m, n.Arc l m → motive m) → motive n) (n : Node) : motive n := by
  induction hs : sizeOf n using Nat.strongRecOn generalizing n with
  | ind size ih =>
    subst hs
    exact step n fun l m ha => ih _ (sizeOf_lt_of_arc ha) m rfl

theorem edgePaths_eq (label : Char → Label) (edges : List (Char × Node)) :
    edgePaths label edges = edges.flatMap fun e => e.2.paths.map (label e.1 :: ·) := by
  induction edges with
  | nil => rfl
  | cons e rest ih => rw [edgePaths, ih, List.flatMap_cons]

theorem slotPaths_eq (slots : List (Placeholder × Node)) :
    slotPaths slots = slots.flatMap fun s => s.2.paths.map (.slot s.1 :: ·) := by
  induction slots with
  | nil => rfl
  | cons s rest ih => rw [slotPaths, ih, List.flatMap_cons]

theorem paths_eq (n : Node) : n.paths =
    (if n.isEnd then [[]] else []) ++ n.arcs.flatMap fun a => a.2.paths.map (a.1 :: ·) := by
  cases n with
  | mk number isEnd chars words slots =>
    simp only [paths, edgePaths_eq, slotPaths_eq, arcs, Node.isEnd, Node.chars, Node.words,
      Node.slots, List.flatMap_append, List.flatMap_map, List.append_assoc]
    rfl

theorem edgePositions_eq (edges : List (Char × Node)) :
    edgePositions edges = edges.flatMap fun e => e.2.positions (.char e.1) := by
  induction edges with
  | nil => rfl
  | cons e rest ih => rw [edgePositions, ih, List.flatMap_cons]

theorem slotPositions_eq (slots : List (Placeholder × Node)) :
    slotPositions slots = slots.flatMap fun s => s.2.positions (.slot s.1) := by
  induction slots with
  | nil => rfl
  | cons s rest ih => rw [slotPositions, ih, List.flatMap_cons]

theorem positions_eq (e : Entry) (n : Node) :
    n.positions e = (e, n) :: n.arcs.flatMap fun a => a.2.positions a.1.entry := by
  cases n with
  | mk number isEnd chars words slots =>
    simp only [positions, edgePositions_eq, slotPositions_eq, arcs, Label.entry, Node.chars,
      Node.words, Node.slots, List.flatMap_append, List.flatMap_map, List.append_assoc]

theorem Ordered.labels_nodup (h : n.Ordered) : (n.arcs.map Prod.fst).Nodup := by
  have hchars : (n.chars.map fun e => Label.more e.1).Nodup :=
    (h.chars.imp fun hlt => by simpa using Char.ne_of_lt hlt).map _ fun _ _ hne => hne
  have hwords : (n.words.map fun e => Label.start e.1).Nodup :=
    (h.words.imp fun hlt => by simpa using Char.ne_of_lt hlt).map _ fun _ _ hne => hne
  have hslots : (n.slots.map fun s => Label.slot s.1).Nodup :=
    (h.slots.imp fun hs => by simpa using hs.2).map _ fun _ _ hne => hne
  simp only [arcs, List.map_append, List.map_map, Function.comp_def]
  refine List.Nodup.append (List.Nodup.append hchars hwords ?_) hslots ?_
  · intro l hl hl'
    obtain ⟨e, -, rfl⟩ := List.mem_map.1 hl
    obtain ⟨e', -, heq⟩ := List.mem_map.1 hl'
    cases heq
  · intro l hl hl'
    obtain ⟨s, -, rfl⟩ := List.mem_map.1 hl'
    rcases List.mem_append.1 hl with hl | hl
    · obtain ⟨e, -, heq⟩ := List.mem_map.1 hl
      cases heq
    · obtain ⟨e, -, heq⟩ := List.mem_map.1 hl
      cases heq

theorem Ordered.arcs_nodup (h : n.Ordered) : n.arcs.Nodup := h.labels_nodup.of_map

theorem Ordered.paths_nodup (h : n.Ordered) : n.paths.Nodup := by
  induction n using arc_induction with
  | step n ih =>
    rw [paths_eq]
    refine List.Nodup.append ?_ (List.nodup_flatMap.2 ⟨?_, ?_⟩) ?_
    · split <;> simp
    · intro a ha
      have harc : n.Arc a.1 a.2 := mem_arcs_iff.1 ha
      exact (ih a.1 a.2 harc (h.arc harc)).map fun _ _ heq => (List.cons.inj heq).2
    · have hlabels := h.labels_nodup
      rw [List.Nodup, List.pairwise_map] at hlabels
      refine hlabels.imp fun hne => ?_
      intro q hq hq'
      obtain ⟨r, -, rfl⟩ := List.mem_map.1 hq
      obtain ⟨r', -, heq⟩ := List.mem_map.1 hq'
      exact hne (List.cons.inj heq).1.symm
    · intro q hq hq'
      have hnil : q = [] := by
        split at hq
        · exact List.mem_singleton.1 hq
        · cases hq
      obtain ⟨a, -, hq'⟩ := List.mem_flatMap.1 hq'
      obtain ⟨r, -, heq⟩ := List.mem_map.1 hq'
      rw [hnil] at heq
      cases heq

def behind? (l : Label) : List Label → Option (List Label)
  | [] => none
  | k :: q => if k = l then some q else none

theorem filterMap_behind?_map (k : Label) (paths : List (List Label)) :
    (paths.map (k :: ·)).filterMap (behind? l) = if k = l then paths else [] := by
  rw [List.filterMap_map]
  split_ifs with hk
  · exact (List.filterMap_congr fun q _ => if_pos hk).trans List.filterMap_some
  · exact List.filterMap_eq_nil_iff.2 fun q _ => if_neg hk

theorem Ordered.filterMap_paths (h : n.Ordered) (l : Label) :
    n.paths.filterMap (behind? l) = (n.child? l).elim [] paths := by
  have hend : (if n.isEnd then [[]] else []).filterMap (behind? l) = [] := by
    split <;> rfl
  rw [paths_eq, List.filterMap_append, hend, List.nil_append, List.filterMap_flatMap]
  simp only [filterMap_behind?_map]
  cases hl : n.child? l with
  | none =>
    refine List.flatMap_eq_nil_iff.2 fun a ha => if_neg fun heq => ?_
    exact not_arc_of_child?_eq_none h hl (heq ▸ mem_arcs_iff.1 ha)
  | some m =>
    have hmem := mem_arcs_iff.2 ((child?_eq_some_iff h).1 hl)
    obtain ⟨before, later, hsplit⟩ := List.append_of_mem hmem
    have hnodup := h.labels_nodup
    rw [hsplit, List.map_append, List.map_cons, List.nodup_append] at hnodup
    obtain ⟨-, hlater, hbefore⟩ := hnodup
    have hnil : ∀ arcs : List (Label × Node), (∀ a ∈ arcs, a.1 ≠ l) →
        (arcs.flatMap fun a => if a.1 = l then a.2.paths else []) = [] :=
      fun arcs hne => List.flatMap_eq_nil_iff.2 fun a ha => if_neg (hne a ha)
    rw [hsplit, List.flatMap_append, List.flatMap_cons, if_pos rfl, hnil before, hnil later,
      List.nil_append, List.append_nil]
    · rfl
    · intro a ha heq
      exact (List.nodup_cons.1 hlater).1 (List.mem_map.2 ⟨a, ha, heq⟩)
    · intro a ha heq
      exact hbefore _ (List.mem_map_of_mem ha) _ List.mem_cons_self heq

theorem arcs_put (h : n.Ordered) (hm : m.Ordered) :
    (n.put l m).arcs.Perm ((l, m) :: n.arcs.filter fun a => a.1 ≠ l) := by
  have hrest := (h.arcs_nodup.filter fun a => a.1 ≠ l)
  refine (List.perm_ext_iff_of_nodup (h.put hm).arcs_nodup ?_).2 ?_
  · exact List.nodup_cons.2 ⟨by simp, hrest⟩
  · intro a
    obtain ⟨k, m'⟩ := a
    rw [mem_arcs_iff, arc_put h]
    simp [mem_arcs_iff, and_comm]

theorem arcs_of_child? (h : n.Ordered) (hl : n.child? l = some m) :
    n.arcs.Perm ((l, m) :: n.arcs.filter fun a => a.1 ≠ l) := by
  have ha := (child?_eq_some_iff h).1 hl
  refine (List.perm_ext_iff_of_nodup h.arcs_nodup ?_).2 ?_
  · exact List.nodup_cons.2 ⟨by simp, h.arcs_nodup.filter _⟩
  · intro a
    obtain ⟨k, m'⟩ := a
    have hsame : n.Arc l m' → m' = m := fun ha' => h.arc_unique ha' ha
    by_cases hk : k = l
    · subst hk
      simp only [mem_arcs_iff, List.mem_cons, List.mem_filter, Prod.mk.injEq, true_and, ne_eq,
        not_true, decide_false, Bool.false_eq_true, and_false, or_false]
      exact ⟨hsame, fun heq => heq ▸ ha⟩
    · simp [mem_arcs_iff, hk]

theorem filter_arcs_of_child?_eq_none (h : n.Ordered) (hl : n.child? l = none) :
    (n.arcs.filter fun a => a.1 ≠ l) = n.arcs := by
  refine List.filter_eq_self.2 fun a ha => ?_
  have hne : a.1 ≠ l := by
    intro heq
    exact not_arc_of_child?_eq_none h hl (heq ▸ mem_arcs_iff.1 ha)
  simpa using hne

end Node
end Phrasebook
